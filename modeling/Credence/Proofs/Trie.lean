import Credence.Trie
import Mathlib.Data.List.Basic
/-!
# Tries keep derivations

Whatever is pruned or brought back, no node of a trie changes its literal or its parent, and every operation on a node
that is there succeeds.  So the literals on the path to a node are those that were resolved to reach it, up to their ids
(`update_spec`), and completing a node gives back its path (`complete_of_path`).
-/
namespace Credence
namespace Trie

variable {W : Type}

/-- Every node is still there, with its literal and its parent. -/
def Keeps (t t' : Trie W) : Prop :=
  ∀ (i : Nat) (n : TrieNode W), t.nodes[i]? = some n →
    ∃ n' : TrieNode W, t'.nodes[i]? = some n' ∧ n'.literal = n.literal ∧ n'.parent = n.parent

/-- The literals on the way from the root to a node. -/
inductive Path (t : Trie W) : Nat → List (Literal W) → Prop
  | root : Path t 0 []
  | child {i p : Nat} {n : TrieNode W} {l : Literal W} {π : List (Literal W)} : Path t p π → t.nodes[i]? = some n →
    i ≠ 0 → p < i → n.parent = some p → n.literal = some l → Path t i (π ++ [l])

theorem Keeps.refl (t : Trie W) : Keeps t t := fun _ n h => ⟨n, h, rfl, rfl⟩

theorem Keeps.trans {t t' t'' : Trie W} (h : Keeps t t') (h' : Keeps t' t'') : Keeps t t'' := by
  intro i n hn
  obtain ⟨n', hn', e1, e2⟩ := h i n hn
  obtain ⟨n'', hn'', e3, e4⟩ := h' i n' hn'
  exact ⟨n'', hn'', e3.trans e1, e4.trans e2⟩

theorem Keeps.size_le {t t' : Trie W} (h : Keeps t t') {i : Nat} (hi : i < t.size) : i < t'.size := by
  obtain ⟨n', hn', -, -⟩ := h i _ (Array.getElem?_eq_getElem hi)
  exact (Array.getElem?_eq_some_iff.1 hn').1

theorem Keeps.path {t t' : Trie W} (h : Keeps t t') {i : Nat} {π : List (Literal W)} (hp : Path t i π) : Path t' i π := by
  induction hp with
  | root => exact .root
  | child _ hn hi hlt hpar hlit ih =>
    obtain ⟨n', hn', e1, e2⟩ := h _ _ hn
    exact .child ih hn' hi hlt (e2.trans hpar) (e1.trans hlit)

theorem path_unique {t : Trie W} {i : Nat} {π π' : List (Literal W)} (h : Path t i π) (h' : Path t i π') : π = π' := by
  induction h generalizing π' with
  | root =>
    cases h' with
    | root => rfl
    | child _ _ hi => exact absurd rfl hi
  | child _ hn hi _ hpar hlit ih =>
    cases h' with
    | root => exact absurd rfl hi
    | child hp' hn' _ _ hpar' hlit' =>
      rw [hn] at hn'
      injection hn' with hn'
      subst hn'
      rw [hpar] at hpar'
      injection hpar' with hpar'
      subst hpar'
      rw [hlit] at hlit'
      injection hlit' with hlit'
      rw [ih hp', hlit']

/-! ## Changing a node in place -/

@[simp] theorem modify_size (t : Trie W) (i : Nat) (f : TrieNode W → TrieNode W) : (t.modify i f).size = t.size := by
  simp [modify, size]

theorem modify_get? (t : Trie W) (i j : Nat) (f : TrieNode W → TrieNode W) :
    (t.modify i f).nodes[j]? = if i = j then t.nodes[j]?.map f else t.nodes[j]? := by
  rw [modify, Array.getElem?_modify]

theorem keeps_modify (t : Trie W) (i : Nat) {f : TrieNode W → TrieNode W} (hl : ∀ n, (f n).literal = n.literal)
    (hp : ∀ n, (f n).parent = n.parent) : Keeps t (t.modify i f) := by
  intro j n hn
  rw [modify_get?, hn]
  split
  · exact ⟨f n, rfl, hl n, hp n⟩
  · exact ⟨n, rfl, rfl, rfl⟩

variable [Weight W]

/-- **What holds of every trie**: parents come before their children, what a node knows as a child is one, and what is
known of every resolved literal holds of its literals. -/
structure Sound (P : Literal W → Prop) (t : Trie W) : Prop where
  root     : ∃ n : TrieNode W, t.nodes[0]? = some n ∧ n.alive = true ∧ n.literal = none ∧ n.parent = none
  parent   : ∀ i n, t.nodes[i]? = some n → i ≠ 0 → ∃ p l, n.parent = some p ∧ p < i ∧ n.literal = some l
  children : ∀ i n, t.nodes[i]? = some n → ∀ k c, n.children[k]? = some c →
    ∃ m, t.nodes[c]? = some m ∧ c ≠ 0 ∧ m.parent = some i ∧ m.literal.map Literal.id = some k
  literals : ∀ (i : Nat) (n : TrieNode W), t.nodes[i]? = some n → ∀ l, n.literal = some l → P l

variable {P : Literal W → Prop}

theorem Sound.mono {Q : Literal W → Prop} {t : Trie W} (h : Sound P t) (hPQ : ∀ l, P l → Q l) : Sound Q t :=
  ⟨h.root, h.parent, h.children, fun i n hn l hl => hPQ l (h.literals i n hn l hl)⟩

theorem Sound.of_mem_path {t : Trie W} (h : Sound P t) {i : Nat} {π : List (Literal W)} (hp : Path t i π) :
    ∀ l ∈ π, P l := by
  induction hp with
  | root => intro l hl; cases hl
  | child _ hn _ _ _ hlit ih =>
    intro l hl
    rcases List.mem_append.1 hl with hl | hl
    · exact ih l hl
    · rw [List.mem_singleton.1 hl]
      exact h.literals _ _ hn _ hlit

theorem Sound.lt_of_path {t : Trie W} (h : Sound P t) {i : Nat} {π : List (Literal W)} (hp : Path t i π) : i < t.size := by
  cases hp with
  | root =>
    obtain ⟨n, hn, -⟩ := h.root
    exact (Array.getElem?_eq_some_iff.1 hn).1
  | child _ hn => exact (Array.getElem?_eq_some_iff.1 hn).1

theorem sound_empty : Sound P (empty : Trie W) := by
  have h0 : ∀ i n, (empty : Trie W).nodes[i]? = some n → i = 0 ∧ n = ⟨none, none, ∅, ∅, true⟩ := by
    intro i n h
    cases i with
    | zero => exact ⟨rfl, by simpa [empty] using h.symm⟩
    | succ i => simp [empty] at h
  refine ⟨⟨_, rfl, rfl, rfl, rfl⟩, fun i n h hi => absurd (h0 i n h).1 hi, fun i n h k c hc => ?_,
    fun i n h l hl => ?_⟩
  · rw [(h0 i n h).2] at hc
    simp at hc
  · rw [(h0 i n h).2] at hl
    cases hl

/-- A change in place is harmless when literal and parent stay, the root lives on, and every child is one. -/
theorem Sound.modify {t : Trie W} (h : Sound P t) (i : Nat) {f : TrieNode W → TrieNode W}
    (hl : ∀ n, (f n).literal = n.literal) (hp : ∀ n, (f n).parent = n.parent)
    (ha : i = 0 → ∀ n, n.alive = true → (f n).alive = true)
    (hc : ∀ n, t.nodes[i]? = some n → ∀ k c, (f n).children[k]? = some c → n.children[k]? = some c ∨
      ∃ m, t.nodes[c]? = some m ∧ c ≠ 0 ∧ m.parent = some i ∧ m.literal.map Literal.id = some k) :
    Sound P (t.modify i f) := by
  have hk := keeps_modify t i hl hp
  have hback : ∀ j n', (t.modify i f).nodes[j]? = some n' → ∃ n, t.nodes[j]? = some n ∧
      ((i = j ∧ n' = f n) ∨ (i ≠ j ∧ n' = n)) := by
    intro j n' hn'
    rw [modify_get?] at hn'
    split at hn'
    · rename_i e
      obtain ⟨n, hn, rfl⟩ := Option.map_eq_some_iff.1 hn'
      exact ⟨n, hn, .inl ⟨e, rfl⟩⟩
    · rename_i e
      exact ⟨n', hn', .inr ⟨e, rfl⟩⟩
  refine ⟨?_, ?_, ?_, ?_⟩
  · obtain ⟨n, hn, halive, h1, h2⟩ := h.root
    rw [modify_get?, hn]
    split
    · rename_i e
      exact ⟨f n, rfl, ha e n halive, (hl n).trans h1, (hp n).trans h2⟩
    · exact ⟨n, rfl, halive, h1, h2⟩
  · intro j n' hn' hj
    obtain ⟨n, hn, e⟩ := hback j n' hn'
    obtain ⟨p, l, h1, h2, h3⟩ := h.parent j n hn hj
    rcases e with ⟨-, rfl⟩ | ⟨-, rfl⟩
    · exact ⟨p, l, (hp n).trans h1, h2, (hl n).trans h3⟩
    · exact ⟨p, l, h1, h2, h3⟩
  · intro j n' hn' k c hkc
    obtain ⟨n, hn, e⟩ := hback j n' hn'
    have hold : ∃ m, t.nodes[c]? = some m ∧ c ≠ 0 ∧ m.parent = some j ∧ m.literal.map Literal.id = some k := by
      rcases e with ⟨rfl, rfl⟩ | ⟨-, rfl⟩
      · rcases hc n hn k c hkc with hkc | hkc
        · exact h.children i n hn k c hkc
        · exact hkc
      · exact h.children j n' hn k c hkc
    obtain ⟨m, hm, h1, h2, h3⟩ := hold
    obtain ⟨m', hm', e1, e2⟩ := hk c m hm
    exact ⟨m', hm', h1, e2.trans h2, by rw [e1]; exact h3⟩
  · intro j n' hn' l hl'
    obtain ⟨n, hn, e⟩ := hback j n' hn'
    rcases e with ⟨-, rfl⟩ | ⟨-, rfl⟩
    · exact h.literals j n hn l ((hl n).symm.trans hl')
    · exact h.literals j n' hn l hl'

/-! ## Bringing nodes back -/

/-- A pruned node is not the root. -/
theorem Sound.ne_root {t : Trie W} (h : Sound P t) {i : Nat} {n : TrieNode W} (hn : t.nodes[i]? = some n)
    (ha : n.alive ≠ true) : i ≠ 0 := by
  rintro rfl
  obtain ⟨n', hn', halive, -, -⟩ := h.root
  rw [hn] at hn'
  injection hn' with hn'
  exact ha (hn' ▸ halive)

/-- A pruned node that is alive again, and known to its parent. -/
def reattach (t : Trie W) (i : Nat) (n : TrieNode W) (p : Nat) : Trie W :=
  (t.modify i (fun m => { m with alive := true })).modify p (fun m => { m with children := m.children.insert n.key i })

theorem Sound.reattach {t : Trie W} (h : Sound P t) {i p : Nat} {n : TrieNode W} (hn : t.nodes[i]? = some n)
    (hi0 : i ≠ 0) (hpar : n.parent = some p) : Sound P (t.reattach i n p) ∧ Keeps t (t.reattach i n p) := by
  obtain ⟨p', l, hpar', -, hlit⟩ := h.parent i n hn hi0
  have h1 : Sound P (t.modify i (fun m => { m with alive := true })) :=
    h.modify i (fun _ => rfl) (fun _ => rfl) (fun _ _ _ => rfl) (fun n _ k c hkc => .inl hkc)
  have hk1 : Keeps t (t.modify i (fun m => { m with alive := true })) :=
    keeps_modify t i (fun _ => rfl) (fun _ => rfl)
  obtain ⟨n', hn', e1, e2⟩ := hk1 i _ hn
  have h2 := h1.modify p (f := fun m => { m with children := m.children.insert n.key i })
    (fun _ => rfl) (fun _ => rfl) (fun _ _ ha => ha) (fun m _ k c hkc => by
      rw [Std.HashMap.getElem?_insert] at hkc
      split at hkc
      · rename_i he
        injection hkc with hkc
        subst hkc
        refine .inr ⟨n', hn', hi0, e2.trans hpar, ?_⟩
        rw [e1, hlit]
        rw [← eq_of_beq he, TrieNode.key, hlit]
        rfl
      · exact .inl hkc)
  exact ⟨h2, hk1.trans (keeps_modify _ p (fun _ => rfl) (fun _ => rfl))⟩

theorem reviveWithin_spec : ∀ (climb i : Nat) {t : Trie W}, Sound P t → i < t.size →
    ∃ t', reviveWithin climb i t = .ok t' ∧ Sound P t' ∧ Keeps t t'
  | 0, i, t, h, _ => ⟨t, rfl, h, .refl t⟩
  | climb + 1, i, t, h, hi => by
    have hn := Array.getElem?_eq_getElem hi
    rw [reviveWithin, hn]
    dsimp only
    by_cases ha : (t.nodes[i]).alive = true
    · rw [if_pos ha]
      exact ⟨t, rfl, h, .refl t⟩
    · rw [if_neg ha]
      have hi0 := h.ne_root hn ha
      obtain ⟨p, l, hpar, hlt, hlit⟩ := h.parent i _ hn hi0
      have hps : p < t.size := Nat.lt_trans hlt hi
      rw [hpar, Option.getD_some, modify_size, if_pos hps]
      obtain ⟨h1, hk1⟩ := h.reattach hn hi0 hpar
      obtain ⟨t', ht', h2, hk2⟩ := reviveWithin_spec climb p h1 (hk1.size_le hps)
      exact ⟨t', ht', h2, hk1.trans hk2⟩

theorem revive_spec {t : Trie W} (h : Sound P t) {i : Nat} (hi : i < t.size) :
    ∃ t', t.revive i = .ok t' ∧ Sound P t' ∧ Keeps t t' := reviveWithin_spec (i + 1) i h hi

/-! ## Operations -/

/-- A new node at the end, which its parent does not know of yet. -/
theorem push_spec {t : Trie W} (h : Sound P t) {i : Nat} (hi : i < t.size) {l : Literal W} (hPl : P l) :
    let node : TrieNode W := ⟨some l, some i, ∅, ∅, true⟩
    Sound P ⟨t.nodes.push node⟩ ∧ Keeps t ⟨t.nodes.push node⟩ ∧ (t.nodes.push node)[t.size]? = some node := by
  intro node
  have hget : ∀ j, (t.nodes.push node)[j]? = if j = t.size then some node else t.nodes[j]? := fun j => Array.getElem?_push
  have hold : ∀ {j : Nat} {n : TrieNode W}, t.nodes[j]? = some n → (t.nodes.push node)[j]? = some n := by
    intro j n hj
    have hlt : j < t.size := (Array.getElem?_eq_some_iff.1 hj).1
    rw [hget, if_neg (Nat.ne_of_lt hlt)]
    exact hj
  refine ⟨⟨?_, fun j n hj hj0 => ?_, fun j n hj k c hkc => ?_, fun j n hj k hk => ?_⟩, fun j n hj => ⟨n, hold hj, rfl, rfl⟩,
    by rw [hget, if_pos rfl]⟩
  · obtain ⟨n, hn, ha⟩ := h.root
    exact ⟨n, hold hn, ha⟩
  · rw [hget] at hj
    split at hj
    · rename_i e
      injection hj with hj
      subst hj
      exact ⟨i, l, rfl, by omega, rfl⟩
    · exact h.parent j n hj hj0
  · rw [hget] at hj
    split at hj
    · injection hj with hj
      subst hj
      simp [node] at hkc
    · obtain ⟨m, hm, h1, h2, h3⟩ := h.children j n hj k c hkc
      exact ⟨m, hold hm, h1, h2, h3⟩
  · rw [hget] at hj
    split at hj
    · injection hj with hj
      subst hj
      injection hk with hk
      exact hk ▸ hPl
    · exact h.literals j n hj k hk

/-- **Resolving one more literal leads to a node with it at the end of its path**, up to the id. -/
theorem update_spec {t : Trie W} (h : Sound P t) {i : Nat} (hi : i < t.size) {l : Literal W} (hPl : P l) :
    ∃ c t', t.update i l = .ok (c, t') ∧ Sound P t' ∧ Keeps t t' ∧ c < t'.size ∧
      ∀ π, Path t i π → ∃ l', l'.id = l.id ∧ Path t' c (π ++ [l']) := by
  obtain ⟨t₁, e₁, h₁, hk₁⟩ := revive_spec h hi
  have hi₁ := hk₁.size_le hi
  have hn := Array.getElem?_eq_getElem hi₁
  have hupd : t.update i l = (t₁.nodes[i]).children[l.id]?.elim
      (.ok (t₁.size, Trie.modify ⟨t₁.nodes.push ⟨some l, some i, ∅, ∅, true⟩⟩ i
        (fun m => { m with children := m.children.insert l.id t₁.size })))
      (fun child => (t₁.revive child).map (fun t => (child, t))) := by
    rw [update, e₁]
    simp only [bind, Except.bind, hn]
    cases (t₁.nodes[i]).children[l.id]? with
    | none => rfl
    | some child => cases t₁.revive child <;> rfl
  rw [hupd]
  cases hc : (t₁.nodes[i]).children[l.id]? with
  | some c =>
    obtain ⟨m, hm, hc0, hpar, hlit⟩ := h₁.children i _ hn l.id c hc
    have hcs : c < t₁.size := (Array.getElem?_eq_some_iff.1 hm).1
    obtain ⟨t₂, e₂, h₂, hk₂⟩ := revive_spec h₁ hcs
    obtain ⟨p, l', hpar', hlt, hlit'⟩ := h₁.parent c m hm hc0
    rw [hpar] at hpar'
    injection hpar' with hpar'
    subst hpar'
    rw [hlit', Option.map_some] at hlit
    injection hlit with hlit
    refine ⟨c, t₂, by rw [Option.elim_some, e₂]; rfl, h₂, hk₁.trans hk₂, hk₂.size_le hcs, fun π hπ => ⟨l', hlit, ?_⟩⟩
    exact hk₂.path (.child (hk₁.path hπ) hm hc0 hlt hpar hlit')
  | none =>
    -- a new node: the trie is extended first, so that the child exists when its parent learns of it
    let t₂ : Trie W := ⟨t₁.nodes.push ⟨some l, some i, ∅, ∅, true⟩⟩
    have hpos : t₁.size ≠ 0 := by omega
    obtain ⟨h₂, hk₂, hnew⟩ : Sound P t₂ ∧ Keeps t₁ t₂ ∧ t₂.nodes[t₁.size]? = some ⟨some l, some i, ∅, ∅, true⟩ :=
      push_spec h₁ hi₁ hPl
    have hk₃ : Keeps t₂ (t₂.modify i (fun m => { m with children := m.children.insert l.id t₁.size })) :=
      keeps_modify t₂ i (fun _ => rfl) (fun _ => rfl)
    refine ⟨t₁.size, _, rfl, ?_, (hk₁.trans hk₂).trans hk₃, ?_, fun π hπ => ⟨l, rfl, ?_⟩⟩
    · refine h₂.modify i (fun _ => rfl) (fun _ => rfl) (fun _ _ ha => ha) (fun n _ k c hkc => ?_)
      rw [Std.HashMap.getElem?_insert] at hkc
      split at hkc
      · rename_i he
        injection hkc with hkc
        subst hkc
        exact .inr ⟨_, hnew, hpos, rfl, by rw [← eq_of_beq he]; rfl⟩
      · exact .inl hkc
    · rw [modify_size]
      show t₁.size < (t₁.nodes.push _).size
      rw [Array.size_push]
      exact Nat.lt_succ_self _
    · exact hk₃.path (.child ((hk₁.trans hk₂).path hπ) hnew hpos hi₁ rfl rfl)

theorem wait_spec {t : Trie W} (h : Sound P t) {i : Nat} (hi : i < t.size) (l : Literal W) :
    ∃ t', t.wait i l = .ok t' ∧ Sound P t' ∧ Keeps t t' := by
  obtain ⟨t₁, e₁, h₁, hk₁⟩ := revive_spec h hi
  refine ⟨t₁.modify i (fun m => { m with waiting := m.waiting.insert l.variant }), ?_, ?_, ?_⟩
  · rw [wait, e₁]
    simp only [bind, Except.bind]
    rw [if_pos (hk₁.size_le hi)]
    rfl
  · exact h₁.modify i (fun _ => rfl) (fun _ => rfl) (fun _ _ ha => ha) (fun n _ k c hkc => .inl hkc)
  · exact hk₁.trans (keeps_modify t₁ i (fun _ => rfl) (fun _ => rfl))

theorem pathWithin_of_path {t : Trie W} (h : Sound P t) {i : Nat} {π : List (Literal W)} (hp : Path t i π) :
    ∀ (climb : Nat) (below : List (Literal W)), i < climb → pathWithin climb (some i) below t = .ok (π ++ below) := by
  induction hp with
  | root =>
    intro climb below hc
    obtain ⟨n, hn, -, hl, hpar⟩ := h.root
    obtain ⟨m, rfl⟩ : ∃ m, climb = m + 1 := ⟨climb - 1, by omega⟩
    simp only [pathWithin, hn, hl, hpar, Option.toList_none, List.nil_append]
  | child _ hn _ hlt hpar hlit ih =>
    intro climb below hc
    obtain ⟨m, rfl⟩ : ∃ m, climb = m + 1 := ⟨climb - 1, by omega⟩
    rw [pathWithin, hn]
    dsimp only
    rw [hpar, hlit, ih m _ (by omega)]
    simp

/-- **A node is completed to the rule whose body is its path.** -/
theorem complete_of_path {t : Trie W} (h : Sound P t) {i : Nat} {π : List (Literal W)} (hp : Path t i π) (hne : π ≠ [])
    (head : Literal W) : t.complete i head = .ok ⟨head, π⟩ := by
  rw [complete, pathWithin_of_path h hp (i + 1) [] (Nat.lt_succ_self i)]
  cases π with
  | nil => exact absurd rfl hne
  | cons l π => simp [bind, Except.bind, pure, Except.pure]

/-! ## Pruning -/

/-- A node that is pruned, and not known to its parent any more. -/
def detach (t : Trie W) (i : Nat) (n : TrieNode W) (p : Nat) : Trie W :=
  (t.modify i (fun m => { m with alive := false })).modify p (fun m => { m with children := m.children.erase n.key })

theorem Sound.detach {t : Trie W} (h : Sound P t) {i : Nat} (hi0 : i ≠ 0) (n : TrieNode W) (p : Nat) :
    Sound P (t.detach i n p) ∧ Keeps t (t.detach i n p) := by
  have h1 : Sound P (t.modify i (fun m => { m with alive := false })) :=
    h.modify i (fun _ => rfl) (fun _ => rfl) (fun e => absurd e hi0) (fun _ _ _ _ hkc => .inl hkc)
  have h2 := h1.modify p (f := fun m => { m with children := m.children.erase n.key })
    (fun _ => rfl) (fun _ => rfl) (fun _ _ ha => ha) (fun _ _ k c hkc => by
      rw [Std.HashMap.getElem?_erase] at hkc
      split at hkc
      · cases hkc
      · exact .inl hkc)
  have hk1 : Keeps t (t.modify i (fun m => { m with alive := false })) := keeps_modify t i (fun _ => rfl) (fun _ => rfl)
  exact ⟨h2, hk1.trans (keeps_modify _ _ (fun _ => rfl) (fun _ => rfl))⟩

theorem pruneWithin_spec : ∀ (climb i : Nat) {t : Trie W}, Sound P t →
    Sound P (pruneWithin climb i t).2 ∧ Keeps t (pruneWithin climb i t).2
  | 0, i, t, h => ⟨h, .refl t⟩
  | climb + 1, i, t, h => by
    rw [pruneWithin]
    cases hn : t.nodes[i]? with
    | none => exact ⟨h, .refl t⟩
    | some n =>
      dsimp only
      split
      · exact ⟨h, .refl t⟩
      · rename_i hc
        have hi0 : i ≠ 0 := by
          rintro rfl
          simp [root] at hc
        obtain ⟨h1, hk1⟩ := h.detach hi0 n (n.parent.getD root)
        obtain ⟨h2, hk2⟩ := pruneWithin_spec climb (n.parent.getD root) h1
        exact ⟨h2, hk1.trans hk2⟩

theorem cleanup_spec {t : Trie W} (h : Sound P t) (l : Literal W) : Sound P (t.cleanup l).2 ∧ Keeps t (t.cleanup l).2 := by
  have key : ∀ (stale : List Nat) (state : Nat × Trie W), Sound P state.2 →
      Sound P (stale.foldl (stopWaiting l.variant) state).2 ∧
        Keeps state.2 (stale.foldl (stopWaiting l.variant) state).2 := by
    intro stale
    induction stale with
    | nil => intro state hs; exact ⟨hs, .refl _⟩
    | cons i stale ih =>
      intro state hs
      have h1 : Sound P (state.2.modify i (fun m => { m with waiting := m.waiting.erase l.variant })) :=
        hs.modify i (fun _ => rfl) (fun _ => rfl) (fun _ _ ha => ha) (fun _ _ _ _ hkc => .inl hkc)
      obtain ⟨h2, hk2⟩ := pruneWithin_spec (i + 1) i h1
      obtain ⟨h3, hk3⟩ := ih (stopWaiting l.variant state i) h2
      refine ⟨h3, Keeps.trans (Keeps.trans ?_ hk2) hk3⟩
      exact keeps_modify _ i (fun _ => rfl) (fun _ => rfl)
  exact key _ (0, t) h

end Trie
end Credence
