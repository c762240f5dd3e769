import Credence.Proofs.Shifting
import Credence.Solver.Run
/-!
# Goals in other variables

What a run keeps for a goal, when the variables of the run are numbered differently.  The goal and what derives its facts
are shifted; the facts themselves and the literals of a trie have wildcards at most, so only these change
(`Trie.plain`, `Store.plain`).  Every operation on a trie, a store or a goal commutes with that.
-/
namespace Credence

variable {W : Type} {n : Nat}

theorem modify_map {α β : Type} {f : α → β} {g : α → α} {g' : β → β} (h : ∀ a, g' (f a) = f (g a)) (as : Array α)
    (i : Nat) : (as.map f).modify i g' = (as.modify i g).map f := by
  refine Array.ext (by simp) (fun j h1 h2 => ?_)
  simp only [Array.getElem_modify, Array.getElem_map]
  split
  · exact h _
  · rfl

/-! ## Tries -/

def TrieNode.plain (n : TrieNode W) : TrieNode W := { n with literal := n.literal.map (Literal.shift 0) }

/-- The trie with all wildcards alike. -/
def Trie.plain (t : Trie W) : Trie W := ⟨t.nodes.map TrieNode.plain⟩

namespace Trie

variable (t : Trie W)

@[simp] theorem size_plain : t.plain.size = t.size := by simp [plain, size]

theorem getElem?_plain (i : Nat) : t.plain.nodes[i]? = t.nodes[i]?.map TrieNode.plain := by simp [plain]

theorem modify_plain (i : Nat) {f : TrieNode W → TrieNode W} (h : ∀ m : TrieNode W, f m.plain = (f m).plain) :
    t.plain.modify i f = (t.modify i f).plain := by
  rw [modify, modify, plain, modify_map h, plain]

variable [Weight W]

theorem key_plain (m : TrieNode W) : m.plain.key = m.key := by
  simp [TrieNode.key, TrieNode.plain, Function.comp_def, Literal.id_shift]

theorem reviveWithin_plain : ∀ (climb i : Nat) (t : Trie W),
    reviveWithin climb i t.plain = (reviveWithin climb i t).map plain
  | 0,         _, _ => rfl
  | climb + 1, i, t => by
    rw [reviveWithin, reviveWithin, getElem?_plain]
    cases t.nodes[i]? with
    | none => rfl
    | some m =>
      have halive : m.plain.alive = m.alive := rfl
      have hparent : m.plain.parent = m.parent := rfl
      simp only [Option.map_some, halive, hparent, key_plain]
      split
      · rfl
      · rw [modify_plain, size_plain]
        · split
          · rw [modify_plain, reviveWithin_plain climb]
            exact fun _ => rfl
          · rfl
        · exact fun _ => rfl

theorem revive_plain (i : Nat) : t.plain.revive i = (t.revive i).map plain := reviveWithin_plain (i + 1) i t

theorem update_plain (i : Nat) (l : Literal W) :
    t.plain.update i (l.shift 0) = (t.update i l).map (fun x => (x.1, x.2.plain)) := by
  rw [update, update, revive_plain]
  cases t.revive i with
  | error e => rfl
  | ok t =>
    simp only [Except.map, bind, Except.bind, getElem?_plain]
    cases t.nodes[i]? with
    | none => rfl
    | some m =>
      have hchildren : m.plain.children = m.children := rfl
      simp only [Option.map_some, hchildren, Literal.id_shift, size_plain]
      cases m.children[l.id]? with
      | none =>
        have hpush : (⟨t.plain.nodes.push ⟨some (l.shift 0), some i, ∅, ∅, true⟩⟩ : Trie W) =
            plain ⟨t.nodes.push ⟨some l, some i, ∅, ∅, true⟩⟩ := by
          simp [plain, TrieNode.plain]
        simp only [hpush]
        rw [modify_plain]
        · rfl
        · exact fun _ => rfl
      | some child =>
        simp only [revive_plain]
        cases t.revive child <;> rfl

theorem wait_plain (i : Nat) (l : Literal W) : t.plain.wait i (l.shift n) = (t.wait i l).map plain := by
  rw [wait, wait, revive_plain]
  cases t.revive i with
  | error e => rfl
  | ok t =>
    simp only [Except.map, bind, Except.bind, size_plain, Literal.variant_shift]
    split
    · rw [modify_plain]
      · rfl
      · exact fun _ => rfl
    · rfl

omit [Weight W] in
theorem pathWithin_plain : ∀ (climb : Nat) (i : Option Nat) (below : List (Literal W)),
    pathWithin climb i (below.map (Literal.shift 0)) t.plain = (pathWithin climb i below t).map (List.map (Literal.shift 0))
  | 0,         none,   _     => rfl
  | _ + 1,     none,   _     => rfl
  | 0,         some _, _     => rfl
  | climb + 1, some i, below => by
    rw [pathWithin, pathWithin, getElem?_plain]
    cases t.nodes[i]? with
    | none => rfl
    | some m =>
      have hbelow : m.plain.literal.toList ++ below.map (Literal.shift 0) =
          (m.literal.toList ++ below).map (Literal.shift 0) := by
        rw [List.map_append, TrieNode.plain]
        cases m.literal <;> rfl
      simp only [Option.map_some, hbelow]
      exact pathWithin_plain climb m.parent (m.literal.toList ++ below)

theorem complete_plain (i : Nat) (head : Literal W) :
    t.plain.complete i (head.shift 0) = (t.complete i head).map (Clause.shift 0) := by
  have hpath := t.pathWithin_plain (i + 1) (some i) []
  rw [List.map_nil] at hpath
  rw [complete, complete, hpath]
  cases pathWithin (i + 1) (some i) [] t with
  | error e => rfl
  | ok body =>
    simp only [Except.map, bind, Except.bind, List.isEmpty_map, Literal.text_shift]
    split <;> rfl

theorem pruneWithin_plain : ∀ (climb i : Nat) (t : Trie W),
    pruneWithin climb i t.plain = ((pruneWithin climb i t).1, (pruneWithin climb i t).2.plain)
  | 0,         _, _ => rfl
  | climb + 1, i, t => by
    rw [pruneWithin, pruneWithin, getElem?_plain]
    cases t.nodes[i]? with
    | none => rfl
    | some m =>
      have halive : m.plain.alive = m.alive := rfl
      have hparent : m.plain.parent = m.parent := rfl
      have hwaiting : m.plain.waiting = m.waiting := rfl
      have hchildren : m.plain.children = m.children := rfl
      simp only [Option.map_some, halive, hparent, hwaiting, hchildren, key_plain]
      split
      · rfl
      · rw [modify_plain, modify_plain, pruneWithin_plain climb]
        · exact fun _ => rfl
        · exact fun _ => rfl

theorem stopWaiting_plain (key : String) (state : Nat × Trie W) (i : Nat) :
    stopWaiting key (state.1, state.2.plain) i =
      ((stopWaiting key state i).1, (stopWaiting key state i).2.plain) := by
  rw [stopWaiting, stopWaiting]
  dsimp only
  rw [modify_plain, pruneWithin_plain]
  exact fun _ => rfl

theorem cleanup_plain (l : Literal W) : t.plain.cleanup (l.shift n) = ((t.cleanup l).1, (t.cleanup l).2.plain) := by
  have hfold : ∀ (is : List Nat) (state : Nat × Trie W), is.foldl (stopWaiting l.variant) (state.1, state.2.plain) =
      ((is.foldl (stopWaiting l.variant) state).1, (is.foldl (stopWaiting l.variant) state).2.plain) := by
    intro is
    induction is with
    | nil => exact fun _ => rfl
    | cons i is ih =>
      intro state
      rw [List.foldl_cons, List.foldl_cons, stopWaiting_plain, ih]
  have hstale : ∀ i : Nat, t.plain.nodes[i]?.any (fun m : TrieNode W => m.waiting.contains l.variant) =
      t.nodes[i]?.any (fun m : TrieNode W => m.waiting.contains l.variant) := fun i => by
    rw [getElem?_plain, Option.any_map]
    rfl
  simp only [cleanup, Literal.variant_shift, size_plain, hstale]
  exact hfold _ (0, t)

end Trie

/-! ## Goals -/

/-- The facts of a goal with all wildcards alike. -/
def Store.plain (s : Store W) : Store W := { s with clauses := s.clauses.map (Clause.shift 0) }

def Derivation.shift (n : Nat) (d : Derivation W) : Derivation W := { d with rule := d.rule.shift n }

def Waiter.shift (n : Nat) (w : Waiter W) : Waiter W := { w with derivation := w.derivation.shift n }

/-- What is known of a goal, seen in other variables. -/
def Subgoal.shift (n : Nat) (g : Subgoal W) : Subgoal W :=
  { g with
    literal := g.literal.shift n
    store := g.store.plain
    waiters := g.waiters.map (Waiter.shift n)
    trie := g.trie.plain
    grounded := g.grounded.map (Clause.shift 0) }

namespace Subgoal

variable (g : Subgoal W)

@[simp] theorem literal_shift : (g.shift n).literal = g.literal.shift n := rfl

@[simp] theorem trie_shift : (g.shift n).trie = g.trie.plain := rfl

@[simp] theorem waiters_shift : (g.shift n).waiters = g.waiters.map (Waiter.shift n) := rfl

@[simp] theorem unprovable_shift : (g.shift n).unprovable = g.unprovable := by rw [shift]

@[simp] theorem capped_shift : (g.shift n).capped = g.capped := by rw [shift]

@[simp] theorem facts_shift : (g.shift n).facts = g.facts.map (Clause.shift 0) := by
  simp [facts, Store.toList, shift, Store.plain]

@[simp] theorem factCount_shift : (g.shift n).factCount = g.factCount := by
  simp [factCount, Store.size, shift, Store.plain]

theorem new_shift (l : Literal W) (capacity : Option Nat) (bloom : Bloom) :
    new (l.shift n) (.empty capacity) bloom = (new l (.empty capacity) bloom).shift n := by
  simp [new, shift, Store.empty, Store.plain, Trie.empty, Trie.plain, TrieNode.plain]

variable [Weight W]

theorem addFact_shift (f : Clause W) (origin : Origin) :
    (g.shift n).addFact (f.shift 0) origin = (g.addFact f origin).map (fun x => (x.1, x.2.shift n)) := by
  have hbloom : (g.shift n).bloom = g.bloom := rfl
  have hcontains : g.store.plain.contains (f.shift 0) = g.store.contains f := by
    rw [Store.contains, Store.contains, Clause.key_shift]
    rfl
  have hadd : g.store.plain.add (f.shift 0) = ((g.store.add f).1, (g.store.add f).2.plain) := by
    have hfull : g.store.plain.isFull = g.store.isFull := by
      rw [Store.isFull, Store.isFull, Store.size, Store.plain, Array.size_map]
      rfl
    rw [Store.add, Store.add, hcontains, hfull]
    split
    · rfl
    · simp [Store.plain]
  simp only [addFact, Clause.fingerprint_shift, hbloom, show (g.shift n).store = g.store.plain from rfl, hcontains, hadd,
    Clause.head_shift, Literal.id_shift]
  split
  · rfl
  · generalize g.store.add f = out
    obtain ⟨isNew, store⟩ := out
    cases isNew <;> rfl

theorem record_shift (c : Clause W) :
    (g.shift n).record (c.shift 0) = ((g.record c).1, (g.record c).2.shift n) := by
  have hkeys : (g.shift n).groundedKeys = g.groundedKeys := rfl
  simp only [record, Clause.key_shift, hkeys]
  split
  · rfl
  · simp [shift]

end Subgoal
end Credence
