import Credence.Proofs.Handles
/-!
# One node for each prefix

A trie is attached when every node that is alive is known to its parent, which is alive as well, by the id of its literal,
and every node that is known as a child is alive.  Then no two nodes that are alive stand for the same ids
(`Attached.unique`).

An update makes a pruned node's prefix again as a new node, and a call on the old node brings the old one back: it takes
the place of the new one, and both are alive from then on.  That is the only way for a trie to get out of order: a call on
a node of an attached trie leaves it attached exactly when no pruned node that it brings back has lost its place
(`attached_of_reached`).
-/
namespace Credence
namespace Trie

variable {W : Type} [Weight W] {t t' : Trie W} {i j p q c : Nat} {k : String} {n : TrieNode W} {P : Literal W → Prop}

/-! ## Views of a trie

What the calls have to do with each other is said by three views of the nodes: which are alive, which a node knows as its
children, and where a node belongs. -/

omit [Weight W] in
def live (t : Trie W) (i : Nat) : Bool := (t.nodes[i]?).any TrieNode.alive

omit [Weight W] in
def child? (t : Trie W) (i : Nat) (k : String) : Option Nat := (t.nodes[i]?).bind (fun n => n.children[k]?)

/-- The parent of a node, and what the parent is to know it by. -/
def seat? (t : Trie W) (i : Nat) : Option (Nat × String) := (t.nodes[i]?).bind (fun n => n.parent.map (fun p => (p, n.key)))

theorem seat?_eq (hn : t.nodes[i]? = some n) (hpar : n.parent = some p) : t.seat? i = some (p, n.key) := by
  rw [seat?, hn, Option.bind_some, hpar, Option.map_some]

/-- A node keeps its place, whatever is called. -/
theorem Keeps.seat? (hk : Keeps t t') (hi : i < t.size) : t'.seat? i = t.seat? i := by
  obtain ⟨n', hn', hlit, hpar⟩ := hk i _ (Array.getElem?_eq_getElem hi)
  rw [Trie.seat?, Trie.seat?, hn', Array.getElem?_eq_getElem hi, Option.bind_some, Option.bind_some, hpar, TrieNode.key,
    hlit, TrieNode.key]

namespace Sound

theorem live_root (h : Sound P t) : t.live Trie.root = true := by
  obtain ⟨n, hn, ha, -⟩ := h.root
  show (t.nodes[0]?).any TrieNode.alive = true
  rw [hn]
  exact ha

/-- A node belongs to one that was made before it. -/
theorem lt_of_seat (h : Sound P t) (hseat : t.seat? i = some (p, k)) : i < t.size ∧ p < i ∧ i ≠ Trie.root := by
  rw [seat?, Option.bind_eq_some_iff] at hseat
  obtain ⟨n, hn, hseat⟩ := hseat
  obtain ⟨p', hpar, e⟩ := Option.map_eq_some_iff.1 hseat
  obtain ⟨rfl, -⟩ := Prod.mk.inj e
  have hi0 : i ≠ Trie.root := by
    rintro rfl
    obtain ⟨n', hn', -, -, hnone⟩ := h.root
    obtain rfl : n = n' := Option.some.inj (hn.symm.trans hn')
    rw [hnone] at hpar
    cases hpar
  obtain ⟨q, l, hpar', hlt, -⟩ := h.parent i n hn hi0
  obtain rfl : p' = q := Option.some.inj (hpar.symm.trans hpar')
  exact ⟨(Array.getElem?_eq_some_iff.1 hn).1, hlt, hi0⟩

/-- What a node knows as a child belongs there. -/
theorem seat_of_child (h : Sound P t) (hc : t.child? i k = some c) : t.seat? c = some (i, k) := by
  rw [child?, Option.bind_eq_some_iff] at hc
  obtain ⟨n, hn, hc⟩ := hc
  obtain ⟨m, hm, -, hpar, hlit⟩ := h.children i n hn k c hc
  rw [seat?_eq hm hpar, TrieNode.key, hlit]
  rfl

end Sound

omit [Weight W] in
theorem lt_of_live (h : t.live i = true) : i < t.size := by
  by_contra hi
  rw [live, Array.getElem?_eq_none (Nat.le_of_not_lt hi)] at h
  cases h

/-! ## How calls change the views -/

section

variable {f : TrieNode W → TrieNode W}

omit [Weight W] in
theorem live_modify (hf : ∀ n, (f n).alive = n.alive) : (t.modify i f).live j = t.live j := by
  rw [live, live, modify_get?]
  split
  · cases t.nodes[j]? <;> simp [hf]
  · rfl

omit [Weight W] in
theorem child?_modify (hf : ∀ n, (f n).children = n.children) : (t.modify i f).child? j k = t.child? j k := by
  rw [child?, child?, modify_get?]
  split
  · cases t.nodes[j]? <;> simp [hf]
  · rfl

theorem seat?_modify (hl : ∀ n, (f n).literal = n.literal) (hp : ∀ n, (f n).parent = n.parent) :
    (t.modify i f).seat? j = t.seat? j := by
  rw [seat?, seat?, modify_get?]
  split
  · cases t.nodes[j]? <;> simp [hl, hp, TrieNode.key]
  · rfl

omit [Weight W] in
theorem live_set (hi : i < t.size) (b : Bool) :
    (t.modify i (fun m => { m with alive := b })).live j = if i = j then b else t.live j := by
  rw [live, modify_get?]
  split
  · rename_i e
    subst e
    rw [Array.getElem?_eq_getElem hi]
    rfl
  · rfl

omit [Weight W] in
theorem child?_insert (hi : i < t.size) (key : String) :
    (t.modify i (fun m => { m with children := m.children.insert key c })).child? j k =
      if i = j ∧ key = k then some c else t.child? j k := by
  rw [child?, child?, modify_get?]
  by_cases e : i = j
  · subst e
    rw [Array.getElem?_eq_getElem hi]
    simp [Std.HashMap.getElem?_insert]
  · simp [e]

omit [Weight W] in
theorem child?_erase (key : String) : (t.modify i (fun m => { m with children := m.children.erase key })).child? j k =
    if i = j ∧ key = k then none else t.child? j k := by
  rw [child?, child?, modify_get?]
  by_cases e : i = j
  · subst e
    cases t.nodes[i]? <;> simp [Std.HashMap.getElem?_erase]
  · simp [e]

end

theorem live_reattach (hi : i < t.size) : (t.reattach i n p).live j = if i = j then true else t.live j := by
  rw [reattach, live_modify, live_set hi]
  exact fun _ => rfl

theorem child?_reattach (hp : p < t.size) :
    (t.reattach i n p).child? j k = if p = j ∧ n.key = k then some i else t.child? j k := by
  rw [reattach, child?_insert (by simpa using hp), child?_modify]
  exact fun _ => rfl

theorem live_detach (hi : i < t.size) : (t.detach i n p).live j = if i = j then false else t.live j := by
  rw [detach, live_modify, live_set hi]
  exact fun _ => rfl

theorem child?_detach : (t.detach i n p).child? j k = if p = j ∧ n.key = k then none else t.child? j k := by
  rw [detach, child?_erase, child?_modify]
  exact fun _ => rfl

/-- A new child of a node. -/
def extend (t : Trie W) (i : Nat) (l : Literal W) : Trie W :=
  Trie.modify ⟨t.nodes.push ⟨some l, some i, ∅, ∅, true⟩⟩ i
    (fun m => { m with children := m.children.insert l.id t.size })

theorem live_extend (l : Literal W) : (t.extend i l).live j = if j = t.size then true else t.live j := by
  rw [extend, live_modify]
  · rw [live, Array.getElem?_push, size]
    by_cases e : j = t.nodes.size
    · rw [if_pos e, if_pos e]
      rfl
    · rw [if_neg e, if_neg e]
      rfl
  · exact fun _ => rfl

theorem child?_extend (hi : i < t.size) (l : Literal W) :
    (t.extend i l).child? j k = if i = j ∧ l.id = k then some t.size else t.child? j k := by
  rw [extend, child?_insert (by simpa [size] using Nat.lt_succ_of_lt hi)]
  congr 1
  rw [child?, Array.getElem?_push]
  split
  · rename_i e
    rw [child?, Array.getElem?_eq_none (Nat.le_of_eq e.symm)]
    simp
  · rfl

theorem seat?_extend (l : Literal W) : (t.extend i l).seat? t.size = some (i, l.id) := by
  rw [extend, seat?, modify_get?]
  simp only [size, Array.getElem?_push_size]
  split <;> rfl

/-! ## Attached tries -/

omit [Weight W] in
/-- What a node knows as a child is alive. -/
def Current (t : Trie W) : Prop := ∀ i k c, t.child? i k = some c → t.live c = true

/-- Every node that is alive is known to its parent, which is alive too; and what is known as a child is alive. -/
structure Attached (t : Trie W) : Prop where
  known   : ∀ i, t.live i = true → i ≠ root → ∃ p k, t.seat? i = some (p, k) ∧ t.live p = true ∧ t.child? p k = some i
  current : t.Current

/-- Two nodes that are alive stand for the same ids. -/
def Crowded (t : Trie W) : Prop :=
  ∃ (i j : Nat) (π π' : List (Literal W)), i ≠ j ∧ t.live i = true ∧ t.live j = true ∧ Path t i π ∧ Path t j π' ∧
    π.map Literal.id = π'.map Literal.id

/-- Two nodes that are alive have the same place. -/
structure Rivals (t : Trie W) (i j : Nat) : Prop where
  ne    : i ≠ j
  left  : t.live i = true
  right : t.live j = true
  place : ∃ p k, t.seat? i = some (p, k) ∧ t.seat? j = some (p, k)

namespace Attached

theorem unique (ha : t.Attached) {π : List (Literal W)} (hp : Path t i π) :
    ∀ {j : Nat} {π' : List (Literal W)}, Path t j π' → t.live i = true → t.live j = true →
      π.map Literal.id = π'.map Literal.id → i = j := by
  induction hp with
  | root =>
    intro j π' hp' _ _ hids
    cases hp' with
    | root => rfl
    | child => simp at hids
  | @child i p n l π _ hn hi0 _ hpar hlit ih =>
    intro j π' hp' hai haj hids
    cases hp' with
    | root => simp at hids
    | @child _ p' n' l' π' hp' hn' hj0 _ hpar' hlit' =>
      simp only [List.map_append, List.map_cons, List.map_nil] at hids
      obtain ⟨hids, hid⟩ := List.append_inj' hids rfl
      have hseat : t.seat? i = some (p, l.id) := by rw [seat?_eq hn hpar, TrieNode.key, hlit]; rfl
      have hseat' : t.seat? j = some (p', l'.id) := by rw [seat?_eq hn' hpar', TrieNode.key, hlit']; rfl
      obtain ⟨_, _, e, hlive, hchild⟩ := ha.known i hai hi0
      obtain ⟨_, _, e', hlive', hchild'⟩ := ha.known j haj hj0
      obtain ⟨rfl, rfl⟩ := Prod.mk.inj (Option.some.inj (hseat.symm.trans e))
      obtain ⟨rfl, rfl⟩ := Prod.mk.inj (Option.some.inj (hseat'.symm.trans e'))
      obtain rfl : p = p' := ih hp' hlive hlive' hids
      rw [(List.cons.inj hid).1] at hchild
      exact Option.some.inj (hchild.symm.trans hchild')

/-- **In an attached trie no two nodes that are alive stand for the same ids.** -/
theorem not_crowded (ha : t.Attached) : ¬ t.Crowded := by
  rintro ⟨i, j, π, π', hne, hi, hj, hp, hp', hids⟩
  exact hne (ha.unique hp hp' hi hj hids)

end Attached

theorem Rivals.crowded (h : t.Rivals i j) (hs : Sound P t) : t.Crowded := by
  have hpath : ∀ {m p : Nat} {k : String}, t.seat? m = some (p, k) → ∀ {π : List (Literal W)}, Path t p π →
      ∃ l, l.id = k ∧ Path t m (π ++ [l]) := by
    intro m p k hseat π hπ
    obtain ⟨-, hlt, hm0⟩ := hs.lt_of_seat hseat
    rw [seat?, Option.bind_eq_some_iff] at hseat
    obtain ⟨n, hn, hseat⟩ := hseat
    obtain ⟨_, hpar, e⟩ := Option.map_eq_some_iff.1 hseat
    obtain ⟨rfl, rfl⟩ := Prod.mk.inj e
    obtain ⟨_, l, _, -, hlit⟩ := hs.parent m n hn hm0
    exact ⟨l, by rw [TrieNode.key, hlit]; rfl, .child hπ hn hm0 hlt hpar hlit⟩
  obtain ⟨p, k, hi, hj⟩ := h.place
  obtain ⟨hisize, hlt, -⟩ := hs.lt_of_seat hi
  obtain ⟨π, hπ, -⟩ := hs.exists_path (Nat.lt_trans hlt hisize)
  obtain ⟨l, hl, hπi⟩ := hpath hi hπ
  obtain ⟨l', hl', hπj⟩ := hpath hj hπ
  exact ⟨i, j, _, _, h.ne, h.left, h.right, hπi, hπj, by simp [hl, hl']⟩

theorem Rivals.mono (h : t.Rivals i j) (hk : Keeps t t') (hlive : ∀ m, t.live m = true → t'.live m = true) :
    t'.Rivals i j := by
  obtain ⟨p, k, hi, hj⟩ := h.place
  exact ⟨h.ne, hlive i h.left, hlive j h.right, p, k, by rw [hk.seat? (lt_of_live h.left), hi],
    by rw [hk.seat? (lt_of_live h.right), hj]⟩

/-! ## Bringing nodes back -/

/-- Bringing a node back takes a place that was given away: its own, or that of a pruned node above it. -/
inductive Displaces (t : Trie W) : Nat → Prop
  | here {i p c : Nat} {k : String} : t.live i = false → t.seat? i = some (p, k) → t.child? p k = some c → Displaces t i
  | above {i p : Nat} {k : String} : t.live i = false → t.seat? i = some (p, k) → Displaces t p → Displaces t i

/-- A node that is alive takes no place. -/
theorem Displaces.live (h : t.Displaces i) : t.live i = false := by
  rcases h with ⟨hdead, -, -⟩ | ⟨hdead, -, -⟩ <;> exact hdead

theorem displaces_iff (hseat : t.seat? i = some (p, k)) :
    t.Displaces i ↔ t.live i = false ∧ ((∃ c, t.child? p k = some c) ∨ t.Displaces p) := by
  constructor
  · rintro (⟨hdead, e, hc⟩ | ⟨hdead, e, habove⟩)
    · obtain ⟨rfl, rfl⟩ := Prod.mk.inj (Option.some.inj (hseat.symm.trans e))
      exact ⟨hdead, .inl ⟨_, hc⟩⟩
    · obtain ⟨rfl, rfl⟩ := Prod.mk.inj (Option.some.inj (hseat.symm.trans e))
      exact ⟨hdead, .inr habove⟩
  · rintro ⟨hdead, ⟨c, hc⟩ | habove⟩
    · exact .here hdead hseat hc
    · exact .above hdead hseat habove

/-- What a node displaces is settled by the nodes before it. -/
theorem displaces_congr (hs : Sound P t) (hseat : ∀ j < t.size, t'.seat? j = t.seat? j) : ∀ {i : Nat}, i < t.size →
    (∀ j ≤ i, t'.live j = t.live j) → (∀ j < i, ∀ k, t'.child? j k = t.child? j k) → (t.Displaces i ↔ t'.Displaces i) := by
  intro i
  induction i using Nat.strongRecOn with
  | ind i ih =>
    intro hi hlive hchild
    cases e : t.seat? i with
    | none =>
      have e' := (hseat i hi).trans e
      exact iff_of_false (by rintro (⟨-, h, -⟩ | ⟨-, h, -⟩) <;> simp [e] at h)
        (by rintro (⟨-, h, -⟩ | ⟨-, h, -⟩) <;> simp [e'] at h)
    | some place =>
      obtain ⟨p, k⟩ := place
      obtain ⟨-, hlt, -⟩ := hs.lt_of_seat e
      rw [displaces_iff e, displaces_iff ((hseat i hi).trans e), hlive i (Nat.le_refl i), hchild p hlt k,
        ih p hlt (Nat.lt_trans hlt hi) (fun j hj => hlive j (Nat.le_trans hj hlt.le))
          (fun j hj => hchild j (Nat.lt_trans hj hlt))]

theorem keeps_reattach : Keeps t (t.reattach i n p) := by
  unfold reattach
  refine Keeps.trans (keeps_modify t i ?_ ?_) (keeps_modify _ p ?_ ?_) <;> exact fun _ => rfl

/-- What is known of a pruned node from which a climb that brings back goes on. -/
theorem Sound.of_pruned (hs : Sound P t) (hn : t.nodes[i]? = some n) (halive : n.alive = false) :
    ∃ p, n.parent.getD Trie.root = p ∧ i < t.size ∧ t.live i = false ∧ t.seat? i = some (p, n.key) ∧
      Sound P (t.reattach i n p) ∧ (t.Displaces p ↔ (t.reattach i n p).Displaces p) := by
  have hi := (Array.getElem?_eq_some_iff.1 hn).1
  have hi0 := hs.ne_root hn (by simp [halive])
  obtain ⟨p, l, hpar, hlt, -⟩ := hs.parent i n hn hi0
  have hps : p < t.size := Nat.lt_trans hlt hi
  refine ⟨p, by rw [hpar, Option.getD_some], hi, by rw [live, hn]; exact halive, seat?_eq hn hpar, (hs.reattach hn hi0 hpar).1,
    displaces_congr hs (fun j hj => keeps_reattach.seat? hj) hps (fun j hj => ?_) (fun j hj k => ?_)⟩
  · rw [live_reattach hi, if_neg (Nat.ne_of_gt (Nat.lt_of_le_of_lt hj hlt))]
  · rw [child?_reattach hps, if_neg (fun h => Nat.ne_of_gt hj h.1)]

theorem Current.reattach (h : t.Current) (hi : i < t.size) (hp : p < t.size) : (t.reattach i n p).Current := by
  intro j k c hc
  rw [child?_reattach hp] at hc
  rw [live_reattach hi]
  split at hc
  · rw [if_pos (Option.some.inj hc)]
  · rw [h j k c hc, ite_self]

omit [Weight W] in
/-- Every node that is alive is known to its parent, which is alive too unless it is `q`. -/
def Hanging (t : Trie W) (q : Nat) : Prop :=
  ∀ i, t.live i = true → i ≠ root → ∃ p k, t.seat? i = some (p, k) ∧ (t.live p = true ∨ p = q) ∧ t.child? p k = some i

/-- A node that takes a free place hangs there, and so do the others. -/
theorem Hanging.reattach (h : t.Hanging i) (hi : i < t.size) (hp : p < t.size) (hseat : t.seat? i = some (p, n.key))
    (hfree : t.child? p n.key = none) : (t.reattach i n p).Hanging p := by
  intro j hj hj0
  rw [live_reattach hi] at hj
  by_cases e : i = j
  · subst e
    exact ⟨p, n.key, by rw [keeps_reattach.seat? hi, hseat], .inr rfl, by rw [child?_reattach hp, if_pos ⟨rfl, rfl⟩]⟩
  · rw [if_neg e] at hj
    obtain ⟨q, k, hseat', hq, hchild⟩ := h j hj hj0
    refine ⟨q, k, by rw [keeps_reattach.seat? (lt_of_live hj), hseat'], .inl ?_, ?_⟩
    · rw [live_reattach hi]
      rcases hq with hq | rfl
      · rw [hq, ite_self]
      · rw [if_pos rfl]
    · rw [child?_reattach hp, if_neg, hchild]
      rintro ⟨rfl, rfl⟩
      rw [hfree] at hchild
      cases hchild

namespace Revives

theorem keeps (h : Revives t i t') : Keeps t t' := by
  induction h with
  | alive => exact .refl _
  | pruned _ _ _ _ ih => exact keeps_reattach.trans ih

theorem sound (h : Revives t i t') : Sound P t → Sound P t' := by
  induction h with
  | alive => exact id
  | pruned hn halive _ _ ih =>
    intro hs
    obtain ⟨p, e, -, -, -, hs', -⟩ := hs.of_pruned hn halive
    rw [e] at ih
    exact ih hs'

theorem mono (h : Revives t i t') (j : Nat) : t.live j = true → t'.live j = true := by
  induction h with
  | alive => exact id
  | pruned hn _ _ _ ih =>
    intro hj
    refine ih ?_
    rw [live_reattach (Array.getElem?_eq_some_iff.1 hn).1, hj, ite_self]

theorem live (h : Revives t i t') : t'.live i = true := by
  cases h with
  | alive hn halive => rw [Trie.live, hn]; exact halive
  | pruned hn _ _ hrev =>
    refine hrev.mono i ?_
    rw [live_reattach (Array.getElem?_eq_some_iff.1 hn).1, if_pos rfl]

/-- Nothing is to be done for a node that is alive. -/
theorem eq_of_live (h : Revives t i t') (hi : t.live i = true) : t' = t := by
  cases h with
  | alive => rfl
  | pruned hn halive =>
    rw [Trie.live, hn] at hi
    exact absurd (hi.symm.trans halive) Bool.true_eq_false.mp

theorem current (h : Revives t i t') : t.Current → t'.Current := by
  induction h with
  | alive => exact id
  | pruned hn _ hp _ ih => exact fun hc => ih (hc.reattach (Array.getElem?_eq_some_iff.1 hn).1 hp)

/-- **A trie is attached when a node is back**, unless that took a place that was given away. -/
theorem attached (h : Revives t i t') : Sound P t → t.Current → t.Hanging i → ¬ t.Displaces i → t'.Attached := by
  induction h with
  | @alive t i n hn halive =>
    intro hs hc hhang _
    refine ⟨fun j hj hj0 => ?_, hc⟩
    obtain ⟨p, k, hseat, hp, hchild⟩ := hhang j hj hj0
    refine ⟨p, k, hseat, ?_, hchild⟩
    rcases hp with hp | rfl
    · exact hp
    · rw [Trie.live, hn]; exact halive
  | @pruned t t' i n hn halive hp _ ih =>
    intro hs hc hhang hnot
    obtain ⟨p, e, hi, hdead, hseat, hs', hiff⟩ := hs.of_pruned hn halive
    rw [e] at ih hp
    rw [displaces_iff hseat] at hnot
    refine ih hs' (hc.reattach hi hp) (hhang.reattach hi hp hseat ?_) (fun hd => hnot ⟨hdead, .inr (hiff.2 hd)⟩)
    exact Option.eq_none_iff_forall_ne_some.2 (fun c hc => hnot ⟨hdead, .inl ⟨c, hc⟩⟩)

/-- **A node that takes the place of another has it for a rival.** -/
theorem rivals (h : Revives t i t') : Sound P t → t.Current → t.Displaces i → ∃ c d, t'.Rivals c d := by
  induction h with
  | alive hn halive =>
    intro hs hc hd
    have hdead := hd.live
    rw [Trie.live, hn] at hdead
    exact absurd (hdead.symm.trans halive) Bool.false_ne_true
  | @pruned t t' i n hn halive hp hrev ih =>
    intro hs hc hd
    obtain ⟨p, e, hi, hdead, hseat, hs', hiff⟩ := hs.of_pruned hn halive
    rw [e] at ih hp hrev
    obtain ⟨-, ⟨c, hchild⟩ | habove⟩ := (displaces_iff hseat).1 hd
    · have hlive := hc p _ c hchild
      have hrivals : (t.reattach i n p).Rivals i c := by
        refine ⟨?_, by rw [live_reattach hi, if_pos rfl], by rw [live_reattach hi, hlive, ite_self], p, n.key,
          by rw [keeps_reattach.seat? hi, hseat], by rw [keeps_reattach.seat? (lt_of_live hlive), hs.seat_of_child hchild]⟩
        rintro rfl
        rw [hdead] at hlive
        cases hlive
      exact ⟨i, c, hrivals.mono hrev.keeps hrev.mono⟩
    · exact ih hs' (hc.reattach hi hp) (hiff.1 habove)

end Revives

/-! ## Pruning -/

omit [Weight W] in
theorem Current.modify {f : TrieNode W → TrieNode W} (h : t.Current) (halive : ∀ n, (f n).alive = n.alive)
    (hchildren : ∀ n, (f n).children = n.children) : (t.modify i f).Current := by
  intro j k c hc
  rw [child?_modify hchildren] at hc
  rw [live_modify halive, h j k c hc]

theorem Attached.modify {f : TrieNode W → TrieNode W} (ha : t.Attached) (hl : ∀ n, (f n).literal = n.literal)
    (hp : ∀ n, (f n).parent = n.parent) (halive : ∀ n, (f n).alive = n.alive)
    (hchildren : ∀ n, (f n).children = n.children) : (t.modify i f).Attached := by
  refine ⟨fun j hj hj0 => ?_, ha.current.modify halive hchildren⟩
  rw [live_modify halive] at hj
  obtain ⟨p, k, hseat, hlive, hchild⟩ := ha.known j hj hj0
  exact ⟨p, k, by rw [seat?_modify hl hp, hseat], by rwa [live_modify halive], by rw [child?_modify hchildren, hchild]⟩

theorem Current.detach (h : t.Current) (hs : Sound P t) (hi : i < t.size) (hseat : t.seat? i = some (p, n.key)) :
    (t.detach i n p).Current := by
  intro j k c hc
  rw [child?_detach] at hc
  rw [live_detach hi]
  split at hc
  · cases hc
  · rename_i hne
    rw [if_neg, h j k c hc]
    rintro rfl
    exact hne (Prod.mk.inj (Option.some.inj (hseat.symm.trans (hs.seat_of_child hc))))

/-- **A trie stays attached when a node without children is pruned.** -/
theorem Attached.detach (ha : t.Attached) (hs : Sound P t) (hlive : t.live i = true) (hseat : t.seat? i = some (p, n.key))
    (hleaf : ∀ k, t.child? i k = none) : (t.detach i n p).Attached := by
  have hi := lt_of_live hlive
  obtain ⟨-, -, hi0⟩ := hs.lt_of_seat hseat
  refine ⟨fun j hj hj0 => ?_, ha.current.detach hs hi hseat⟩
  have hk : Keeps t (t.detach i n p) := (hs.detach hi0 n p).2
  rw [live_detach hi] at hj
  split at hj
  · cases hj
  · rename_i hne
    obtain ⟨q, k, hq, hqlive, hchild⟩ := ha.known j hj hj0
    refine ⟨q, k, by rw [hk.seat? (lt_of_live hj), hq], ?_, ?_⟩
    · rw [live_detach hi, if_neg, hqlive]
      rintro rfl
      rw [hleaf] at hchild
      cases hchild
    · rw [child?_detach, if_neg, hchild]
      rintro ⟨rfl, rfl⟩
      obtain ⟨_, _, e, -, hchild'⟩ := ha.known i hlive hi0
      obtain ⟨rfl, rfl⟩ := Prod.mk.inj (Option.some.inj (hseat.symm.trans e))
      exact hne (Option.some.inj (hchild'.symm.trans hchild))

/-- What is known of a node from which a climb that prunes goes on. -/
theorem Sound.of_not_stops (hs : Sound P t) (hn : t.nodes[i]? = some n) (hgo : stops i n = false) :
    ∃ p, n.parent.getD Trie.root = p ∧ t.seat? i = some (p, n.key) ∧ t.live i = true ∧ ∀ k, t.child? i k = none := by
  simp only [stops, Bool.or_eq_false_iff, decide_eq_false_iff_not, Bool.not_eq_false'] at hgo
  obtain ⟨⟨⟨hi0, halive⟩, -⟩, hchildren⟩ := hgo
  obtain ⟨p, l, hpar, -, -⟩ := hs.parent i n hn hi0
  refine ⟨p, by rw [hpar, Option.getD_some], seat?_eq hn hpar, by rw [live, hn]; exact halive, fun k => ?_⟩
  rw [child?, hn, Option.bind_some]
  exact Std.HashMap.getElem?_of_isEmpty hchildren

theorem Prunes.attached {count : Nat} (h : Prunes t i count t') : Sound P t →
    Sound P t' ∧ (t.Current → t'.Current) ∧ (t.Attached → t'.Attached) := by
  induction h with
  | stop => exact fun hs => ⟨hs, id, id⟩
  | @climb t t' i count n hn hgo _ _ ih =>
    intro hs
    obtain ⟨p, e, hseat, hlive, hleaf⟩ := hs.of_not_stops hn hgo
    rw [e] at ih
    obtain ⟨hs', hcurrent, hattached⟩ := ih (hs.detach (hs.lt_of_seat hseat).2.2 n p).1
    exact ⟨hs', fun hc => hcurrent (hc.detach hs (lt_of_live hlive) hseat),
      fun ha => hattached (ha.detach hs hlive hseat hleaf)⟩

/-- **Cleaning up keeps a trie attached.** -/
theorem Cleans.attached {key : String} {is : List Nat} {count : Nat} (h : Cleans key is t count t') : Sound P t →
    (t.Current → t'.Current) ∧ (t.Attached → t'.Attached) := by
  induction h with
  | nil => exact fun _ => ⟨id, id⟩
  | @cons t t₁ t₂ i count rest is hprunes _ ih =>
    intro hs
    obtain ⟨hs₁, hcurrent₁, hattached₁⟩ := hprunes.attached
      (hs.modify i (fun _ => rfl) (fun _ => rfl) (fun _ _ ha => ha) (fun _ _ _ _ hkc => .inl hkc))
    obtain ⟨hcurrent, hattached⟩ := ih hs₁
    exact ⟨fun hc => hcurrent (hcurrent₁ (hc.modify (fun _ => rfl) (fun _ => rfl))),
      fun ha => hattached (hattached₁ (ha.modify (fun _ => rfl) (fun _ => rfl) (fun _ => rfl) (fun _ => rfl)))⟩

/-! ## Calls -/

/-- What a call does to a trie in which its node is back: it finds a child or makes it, or notes a wait. -/
inductive Follows (t : Trie W) (i : Nat) : Trie W → Prop
  | found : Follows t i t
  | made {l : Literal W} : t.child? i l.id = none → Follows t i (t.extend i l)
  | noted {l : Literal W} : Follows t i (t.modify i (fun m => { m with waiting := m.waiting.insert l.variant }))

/-- **What a call can do**: it brings its node back and goes on from there, or cleans up. -/
theorem Step.cases {call : Call W} (hstep : Step t call t') (hs : Sound (fun _ => True) t) (hc : t.Current) :
    (∃ i t₁, call.node? = some i ∧ i < t.size ∧ Revives t i t₁ ∧ Follows t₁ i t') ∨
    ∃ key is count, call.node? = none ∧ Cleans key is t count t' := by
  obtain ⟨hown, happly⟩ := hstep
  cases call with
  | update i l =>
    refine .inl ⟨i, ?_⟩
    have hi := hown i rfl
    obtain ⟨t₁, e, hrev⟩ := revive_revives hs hi
    obtain ⟨n, hn⟩ : ∃ n, t₁.nodes[i]? = some n := ⟨_, Array.getElem?_eq_getElem (lt_of_live hrev.live)⟩
    refine ⟨t₁, rfl, hi, hrev, ?_⟩
    have hchild : t₁.child? i l.id = n.children[l.id]? := by rw [child?, hn, Option.bind_some]
    rw [Call.apply, update, e] at happly
    simp only [bind, Except.bind, hn, ← hchild] at happly
    cases hfound : t₁.child? i l.id with
    | none =>
      rw [hfound] at happly
      obtain rfl : t₁.extend i l = t' := Except.ok.inj happly
      exact .made hfound
    | some c =>
      rw [hfound] at happly
      have hlive := hrev.current hc i l.id c hfound
      obtain ⟨t₂, e₂, hrev₂⟩ := revive_revives (hrev.sound hs) (lt_of_live hlive)
      obtain rfl : t₂ = t₁ := hrev₂.eq_of_live hlive
      simp only [e₂] at happly
      obtain rfl : t₂ = t' := Except.ok.inj happly
      exact .found
  | wait i l =>
    refine .inl ⟨i, ?_⟩
    have hi := hown i rfl
    obtain ⟨t₁, e, hrev⟩ := revive_revives hs hi
    refine ⟨t₁, rfl, hi, hrev, ?_⟩
    rw [Call.apply, wait, e] at happly
    simp only [bind, Except.bind, if_pos (lt_of_live hrev.live)] at happly
    obtain rfl := Except.ok.inj happly
    exact .noted
  | cleanup l =>
    obtain rfl : (t.cleanup l).2 = t' := Except.ok.inj happly
    exact .inr ⟨_, _, _, rfl, cleanup_cleans hs l⟩

theorem Current.extend (h : t.Current) (hi : i < t.size) (l : Literal W) : (t.extend i l).Current := by
  intro j k c hc
  rw [child?_extend hi] at hc
  rw [live_extend]
  split at hc
  · rw [if_pos (Option.some.inj hc).symm]
  · rw [h j k c hc, ite_self]

theorem keeps_extend (l : Literal W) : Keeps t (t.extend i l) := by
  have hpush : Keeps t ⟨t.nodes.push ⟨some l, some i, ∅, ∅, true⟩⟩ := fun j n hn => by
    refine ⟨n, ?_, rfl, rfl⟩
    rw [Array.getElem?_push, if_neg (Nat.ne_of_lt (Array.getElem?_eq_some_iff.1 hn).1), hn]
  exact hpush.trans (keeps_modify _ i (fun _ => rfl) (fun _ => rfl))

/-- **A trie stays attached when a node that has no child for a literal gets one.** -/
theorem Attached.extend (ha : t.Attached) (hlive : t.live i = true) {l : Literal W} (hfree : t.child? i l.id = none) :
    (t.extend i l).Attached := by
  have hi := lt_of_live hlive
  refine ⟨fun j hj hj0 => ?_, ha.current.extend hi l⟩
  rw [live_extend] at hj
  by_cases e : j = t.size
  · subst e
    exact ⟨i, l.id, seat?_extend l, by rw [live_extend, hlive, ite_self], by rw [child?_extend hi, if_pos ⟨rfl, rfl⟩]⟩
  · rw [if_neg e] at hj
    obtain ⟨p, k, hseat, hp, hchild⟩ := ha.known j hj hj0
    refine ⟨p, k, by rw [(keeps_extend l).seat? (lt_of_live hj), hseat], ?_, ?_⟩
    · rw [live_extend, hp, ite_self]
    · rw [child?_extend hi, if_neg, hchild]
      rintro ⟨rfl, rfl⟩
      rw [hfree] at hchild
      cases hchild

namespace Follows

theorem keeps (h : Follows t i t') : Keeps t t' := by
  cases h with
  | found => exact .refl t
  | made => exact keeps_extend _
  | noted => exact keeps_modify t i (fun _ => rfl) (fun _ => rfl)

theorem mono (h : Follows t i t') (j : Nat) (hj : t.live j = true) : t'.live j = true := by
  cases h with
  | found => exact hj
  | made => rw [live_extend, hj, ite_self]
  | noted =>
    rw [live_modify, hj]
    exact fun _ => rfl

theorem current (h : Follows t i t') (hi : i < t.size) (hc : t.Current) : t'.Current := by
  cases h with
  | found => exact hc
  | made => exact hc.extend hi _
  | noted => exact hc.modify (fun _ => rfl) (fun _ => rfl)

theorem attached (h : Follows t i t') (hlive : t.live i = true) (ha : t.Attached) : t'.Attached := by
  cases h with
  | found => exact ha
  | made hfree => exact ha.extend hlive hfree
  | noted => exact ha.modify (fun _ => rfl) (fun _ => rfl) (fun _ => rfl) (fun _ => rfl)

end Follows

/-- A call brings a node back and takes a place that was given away. -/
def Call.Displaces (t : Trie W) (call : Call W) : Prop := ∃ i ∈ call.node?, t.Displaces i

namespace Step

variable {call : Call W}

theorem current (hstep : Step t call t') (hs : Sound (fun _ => True) t) (hc : t.Current) : t'.Current := by
  obtain ⟨i, t₁, -, -, hrev, hthen⟩ | ⟨key, is, count, -, hcleans⟩ := hstep.cases hs hc
  · exact hthen.current (lt_of_live hrev.live) (hrev.current hc)
  · exact (hcleans.attached hs).1 hc

/-- **A call keeps a trie attached** unless it takes a place that was given away. -/
theorem attached (hstep : Step t call t') (hs : Sound (fun _ => True) t) (ha : t.Attached) (hnot : ¬ call.Displaces t) :
    t'.Attached := by
  obtain ⟨i, t₁, hnode, -, hrev, hthen⟩ | ⟨key, is, count, -, hcleans⟩ := hstep.cases hs ha.current
  · have hhang : t.Hanging i := fun j hj hj0 => by
      obtain ⟨p, k, hseat, hlive, hchild⟩ := ha.known j hj hj0
      exact ⟨p, k, hseat, .inl hlive, hchild⟩
    exact hthen.attached hrev.live (hrev.attached hs ha.current hhang (fun hd => hnot ⟨i, hnode, hd⟩))
  · exact (hcleans.attached hs).2 ha

/-- **A call that takes a place that was given away leaves two nodes for the same ids.** -/
theorem crowded (hstep : Step t call t') (hs : Sound (fun _ => True) t) (hc : t.Current) (hd : call.Displaces t) :
    t'.Crowded := by
  obtain ⟨j, hj, hd⟩ := hd
  obtain ⟨i, t₁, hnode, -, hrev, hthen⟩ | ⟨key, is, count, hnode, -⟩ := hstep.cases hs hc
  · obtain rfl : i = j := Option.some.inj (hnode.symm.trans hj)
    obtain ⟨c, d, hrivals⟩ := hrev.rivals hs hc hd
    exact (hrivals.mono hthen.keeps hthen.mono).crowded (hstep.sound hs).1
  · rw [hnode] at hj
    cases hj

end Step

/-! ## Runs -/

/-- The tries that calls lead to none of which takes a place that was given away. -/
inductive Orderly : Trie W → Prop
  | empty : Orderly .empty
  | step {t t' : Trie W} {call : Call W} : Orderly t → Step t call t' → ¬ call.Displaces t → Orderly t'

theorem Orderly.reached (h : Orderly t) : Reached t := by
  induction h with
  | empty => exact .empty
  | step _ hstep _ ih => exact ih.step hstep

theorem attached_empty : (empty : Trie W).Attached := by
  refine ⟨fun i hi hi0 => absurd (Nat.lt_one_iff.1 (lt_of_live hi)) hi0, fun i k c hc => ?_⟩
  cases i <;> simp [child?, empty] at hc

theorem Reached.current (h : Reached t) : t.Current := by
  induction h with
  | empty => exact attached_empty.current
  | step hreached hstep ih => exact hstep.current hreached.sound ih

theorem Orderly.attached (h : Orderly t) : t.Attached := by
  induction h with
  | empty => exact attached_empty
  | step hordered hstep hnot ih => exact hstep.attached hordered.reached.sound ih hnot

/-- **When tries share prefixes.**  In every trie that calls on its own nodes lead to, the children that nodes know are
alive.  As long as no call has taken a place that was given away, every node that is alive is known to its parent, which is
alive as well, by the id of its literal, and no two stand for the same ids; a call on an attached trie leaves it attached
exactly when it takes no such place, and with two nodes that stand for the same ids when it takes one. -/
theorem attached_of_reached (h : Reached t) :
    (∀ i k c, t.child? i k = some c → t.live c = true) ∧
    (Orderly t →
      (∀ i, t.live i = true → i ≠ root → ∃ p k, t.seat? i = some (p, k) ∧ t.live p = true ∧ t.child? p k = some i) ∧
      ¬ t.Crowded) ∧
    (t.Attached → ∀ call t', Step t call t' → (t'.Attached ↔ ¬ call.Displaces t) ∧ (call.Displaces t → t'.Crowded)) := by
  have hs := h.sound
  refine ⟨h.current, fun ho => ⟨fun i => ho.attached.known i, ho.attached.not_crowded⟩, fun ha call t' hstep => ?_⟩
  have hcrowded : call.Displaces t → t'.Crowded := hstep.crowded hs ha.current
  exact ⟨⟨fun ha' hd => ha'.not_crowded (hcrowded hd), hstep.attached hs ha⟩, hcrowded⟩

namespace Regrown

/-- The trie in which the pruned node's only literal is resolved again. -/
def remade (a m : Literal W) : Trie W := (pruned a m).extend root a

theorem remade_spec (a m : Literal W) : (pruned a m).update root a = .ok (2, remade a m) := by
  simp [update, pruned, remade, extend, revive, reviveWithin, size, modify, root, bind, Except.bind, pure, Except.pure]

theorem orderly_remade (a m : Literal W) : Orderly (remade a m) := by
  have hlive : ∀ {t : Trie W} {call : Call W}, (∀ i ∈ call.node?, t.live i = true) → ¬ call.Displaces t := by
    rintro t call halive ⟨i, hi, hd⟩
    exact absurd ((halive i hi).symm.trans hd.live) Bool.true_eq_false.mp
  have hroot : ∀ {t : Trie W}, Sound (fun _ => True) t → ¬ (Call.update root a).Displaces t :=
    fun hs => hlive (fun i hi => by cases hi; exact hs.live_root)
  have hmade : Orderly (made a) := Orderly.empty.step (step_update Nat.one_pos (made_spec a)) (hroot sound_empty)
  have hwaiting : Orderly (waiting a m) := hmade.step (step_wait a m) (hlive (fun i hi => by cases hi; rfl))
  have hpruned : Orderly (pruned a m) := hwaiting.step (step_cleanup a m) (hlive (fun i hi => (by cases hi)))
  exact hpruned.step (step_update Nat.two_pos (remade_spec a m)) (hroot hpruned.reached.sound)

/-- The node that was pruned is called, and the one made in its stead is alive. -/
theorem displaces_remade (a m : Literal W) : (Call.wait 1 m).Displaces (remade a m) := by
  refine ⟨1, rfl, .here (p := 0) (k := a.id) (c := 2) ?_ ?_ ?_⟩
  · simp [live, remade, pruned, extend, modify, root]
  · simp [seat?, remade, pruned, extend, modify, root, TrieNode.key]
  · simp [child?, remade, pruned, extend, modify, root, size]

end Regrown

open Regrown in
theorem attached_of_reached_remade : Orderly (remade found awaited) ∧ ∃ t', Step (remade found awaited) (.wait 1 awaited) t' ∧
    t'.Crowded ∧ ¬ t'.Attached := by
  have ho := orderly_remade found awaited
  have hreached := ho.reached
  obtain ⟨t', hstep⟩ := hreached.sound.exists_step (.wait 1 awaited) (fun i hi => by cases hi; decide)
  obtain ⟨hiff, hcrowded⟩ := (attached_of_reached hreached).2.2 ho.attached _ t' hstep
  have hd := displaces_remade found awaited
  exact ⟨ho, t', hstep, hcrowded hd, fun ha => hiff.1 ha hd⟩

end Trie
end Credence
