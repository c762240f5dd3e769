import Credence.Proofs.Trie
import Credence.Proofs.Weight
/-!
# Nodes that are held

A node of a trie is handed out by updates, each of the node that the one before handed out, and may be held while other
calls prune and bring back what they like.  Whatever was called meanwhile, completing the node gives the literals that
were resolved on the way to it, up to their ids; no call on a node of the trie fails but the completion of the root; and
every climb towards the root comes to its end by itself, not by the bound that is set to it (`handed_of_reached`).
-/
namespace Credence
namespace Trie

variable {W : Type} [Weight W] {t t' : Trie W} {i : Nat}

/-! ## Calls -/

/-- What can be asked of a trie. -/
inductive Call (W : Type) where
  | update (node : Nat) (resolved : Literal W)
  | wait (node : Nat) (next : Literal W)
  | cleanup (l : Literal W)

namespace Call

omit [Weight W] in
/-- The node that a call is made on. -/
def node? : Call W → Option Nat
  | update i _ => some i
  | wait i _   => some i
  | cleanup _  => none

/-- The trie after a call. -/
def apply (t : Trie W) : Call W → Except Error (Trie W)
  | update i l => (t.update i l).map Prod.snd
  | wait i l   => t.wait i l
  | cleanup l  => .ok (t.cleanup l).2

end Call

/-- A call on a node of the trie, and the trie that comes of it. -/
structure Step (t : Trie W) (call : Call W) (t' : Trie W) : Prop where
  own   : ∀ i ∈ call.node?, i < t.size
  apply : call.apply t = .ok t'

theorem step_update {l : Literal W} {c : Nat} (hi : i < t.size) (h : t.update i l = .ok (c, t')) :
    Step t (.update i l) t' := by
  refine ⟨fun j hj => ?_, by rw [Call.apply, h]; rfl⟩
  obtain rfl : i = j := Option.some.inj hj
  exact hi

/-- The tries that calls on their own nodes lead to. -/
inductive Reached : Trie W → Prop
  | empty : Reached .empty
  | step {t t' : Trie W} {call : Call W} : Reached t → Step t call t' → Reached t'

/-- A node that was handed out for some literals, in a trie of any later time: each literal by an update of the node that
was handed out for those before it, with any calls in between. -/
inductive Handed : Trie W → Nat → List (Literal W) → Prop
  | root {t : Trie W} : Reached t → Handed t root []
  | update {t t' : Trie W} {i c : Nat} {ls : List (Literal W)} {l : Literal W} : Handed t i ls →
    t.update i l = .ok (c, t') → Handed t' c (ls ++ [l])
  | later {t t' : Trie W} {i : Nat} {ls : List (Literal W)} {call : Call W} : Handed t i ls → Step t call t' →
    Handed t' i ls

variable {P : Literal W → Prop}

/-- **Every call on a node of the trie succeeds.** -/
theorem Sound.exists_step (h : Sound (fun _ => True) t) (call : Call W) (hown : ∀ i ∈ call.node?, i < t.size) :
    ∃ t', Step t call t' := by
  cases call with
  | update i l =>
    obtain ⟨c, t', e, -⟩ := update_spec h (hown i rfl) (l := l) trivial
    exact ⟨t', hown, by rw [Call.apply, e]; rfl⟩
  | wait i l =>
    obtain ⟨t', e, -⟩ := wait_spec h (hown i rfl) l
    exact ⟨t', hown, e⟩
  | cleanup l => exact ⟨_, hown, rfl⟩

/-- **A call keeps a trie sound and its nodes where they are.** -/
theorem Step.sound {call : Call W} (hstep : Step t call t') (h : Sound (fun _ => True) t) :
    Sound (fun _ => True) t' ∧ Keeps t t' := by
  obtain ⟨hown, happly⟩ := hstep
  cases call with
  | update i l =>
    obtain ⟨c, t₁, e, h₁, hk, -⟩ := update_spec h (hown i rfl) (l := l) trivial
    rw [Call.apply, e] at happly
    obtain rfl : t₁ = t' := Except.ok.inj happly
    exact ⟨h₁, hk⟩
  | wait i l =>
    obtain ⟨t₁, e, h₁, hk⟩ := wait_spec h (hown i rfl) l
    rw [Call.apply, e] at happly
    obtain rfl : t₁ = t' := Except.ok.inj happly
    exact ⟨h₁, hk⟩
  | cleanup l =>
    obtain rfl : (t.cleanup l).2 = t' := Except.ok.inj happly
    exact cleanup_spec h l

theorem Reached.sound (h : Reached t) : Sound (fun _ => True) t := by
  induction h with
  | empty => exact sound_empty
  | step _ hstep ih => exact (hstep.sound ih).1

/-! ## Paths of held nodes -/

/-- Every node has a path, and only the root's is empty. -/
theorem Sound.exists_path (h : Sound P t) : ∀ {i : Nat}, i < t.size → ∃ π, Path t i π ∧ (π = [] ↔ i = Trie.root) := by
  intro i
  induction i using Nat.strongRecOn with
  | ind i ih =>
    intro hi
    by_cases hi0 : i = Trie.root
    · exact ⟨[], hi0 ▸ .root, by simp [hi0]⟩
    · have hn := Array.getElem?_eq_getElem hi
      obtain ⟨p, l, hpar, hlt, hlit⟩ := h.parent i _ hn hi0
      obtain ⟨π, hπ, -⟩ := ih p hlt (Nat.lt_trans hlt hi)
      exact ⟨π ++ [l], .child hπ hn hi0 hlt hpar hlit, by simp [hi0]⟩

/-- **A node that is held keeps its path**, which has the ids of the literals that it was handed out for. -/
theorem Handed.path {ls : List (Literal W)} (h : Handed t i ls) :
    Sound (fun _ => True) t ∧ ∃ π, Path t i π ∧ π.map Literal.id = ls.map Literal.id := by
  induction h with
  | root hreached => exact ⟨hreached.sound, [], .root, rfl⟩
  | @update t t' i c ls l _ hupdate ih =>
    obtain ⟨hsound, π, hπ, hids⟩ := ih
    obtain ⟨c', t₁, e, hsound₁, -, -, hpath⟩ := update_spec hsound (hsound.lt_of_path hπ) (l := l) trivial
    rw [hupdate] at e
    obtain ⟨rfl, rfl⟩ := Prod.mk.inj (Except.ok.inj e)
    obtain ⟨l', hid, hπ'⟩ := hpath π hπ
    exact ⟨hsound₁, π ++ [l'], hπ', by simp [hids, hid]⟩
  | later _ hstep ih =>
    obtain ⟨hsound, π, hπ, hids⟩ := ih
    obtain ⟨hsound', hk⟩ := hstep.sound hsound
    exact ⟨hsound', π, hk.path hπ, hids⟩

theorem Handed.reached {ls : List (Literal W)} (h : Handed t i ls) : Reached t := by
  induction h with
  | root hreached => exact hreached
  | @update t t' i c ls l hheld hupdate ih =>
    obtain ⟨hsound, π, hπ, -⟩ := hheld.path
    exact ih.step (step_update (hsound.lt_of_path hπ) hupdate)
  | later _ hstep ih => exact ih.step hstep

theorem complete_root (h : Sound P t) (head : Literal W) :
    t.complete root head = .error (.fault ("empty derivation for `" ++ head.text ++ "`")) := by
  have hpath : pathWithin (root + 1) (some root) [] t = .ok [] := pathWithin_of_path h .root (root + 1) [] (Nat.lt_succ_self root)
  rw [complete, hpath]
  rfl

/-- The root alone cannot be completed. -/
theorem Sound.isOk_complete_iff (h : Sound P t) (hi : i < t.size) (head : Literal W) :
    (∃ rule, t.complete i head = .ok rule) ↔ i ≠ Trie.root := by
  constructor
  · rintro ⟨rule, hrule⟩ rfl
    rw [complete_root h head] at hrule
    cases hrule
  · intro hi0
    obtain ⟨π, hπ, hnil⟩ := h.exists_path hi
    exact ⟨_, complete_of_path h hπ (fun e => hi0 (hnil.1 e)) head⟩

/-! ## Climbs without a bound -/

/-- Bringing a node back, climbing as long as there is a pruned one. -/
inductive Revives : Trie W → Nat → Trie W → Prop
  | alive {t : Trie W} {i : Nat} {n : TrieNode W} : t.nodes[i]? = some n → n.alive = true → Revives t i t
  | pruned {t t' : Trie W} {i : Nat} {n : TrieNode W} : t.nodes[i]? = some n → n.alive = false →
    n.parent.getD root < t.size → Revives (t.reattach i n (n.parent.getD root)) (n.parent.getD root) t' → Revives t i t'

/-- Whether a climb that prunes ends at a node. -/
def stops (i : Nat) (n : TrieNode W) : Bool := i = root || !n.alive || !n.waiting.isEmpty || !n.children.isEmpty

/-- Pruning from a node, climbing as long as nothing is left; with how many were pruned. -/
inductive Prunes : Trie W → Nat → Nat → Trie W → Prop
  | stop {t : Trie W} {i : Nat} {n : TrieNode W} : t.nodes[i]? = some n → stops i n = true → Prunes t i 0 t
  | climb {t t' : Trie W} {i count : Nat} {n : TrieNode W} : t.nodes[i]? = some n → stops i n = false →
    n.parent.getD root < t.size → Prunes (t.detach i n (n.parent.getD root)) (n.parent.getD root) count t' → Prunes t i (count + 1) t'

/-- Dropping a wait at some nodes, one after the other, and pruning from each. -/
inductive Cleans (key : String) : List Nat → Trie W → Nat → Trie W → Prop
  | nil {t : Trie W} : Cleans key [] t 0 t
  | cons {t t₁ t₂ : Trie W} {i count rest : Nat} {is : List Nat} :
    Prunes (t.modify i (fun m => { m with waiting := m.waiting.erase key })) i count t₁ → Cleans key is t₁ rest t₂ →
    Cleans key (i :: is) t (count + rest) t₂

omit [Weight W] in
/-- The nodes at which something is waited for. -/
def waitingFor (t : Trie W) (key : String) : List Nat :=
  (List.range t.size).filter (fun i => (t.nodes[i]?).any (fun n => n.waiting.contains key))

theorem reviveWithin_revives : ∀ (climb i : Nat) {t : Trie W}, Sound P t → i < t.size → i < climb →
    ∃ t', reviveWithin climb i t = .ok t' ∧ Revives t i t'
  | 0, i, t, _, _, hc => absurd hc (Nat.not_lt_zero i)
  | climb + 1, i, t, h, hi, hc => by
    have hn := Array.getElem?_eq_getElem hi
    rw [reviveWithin, hn]
    dsimp only
    cases ha : (t.nodes[i]).alive with
    | true => exact ⟨t, rfl, .alive hn ha⟩
    | false =>
      rw [if_neg (by simp)]
      have hi0 := h.ne_root hn (by simp [ha])
      obtain ⟨p, l, hpar, hlt, -⟩ := h.parent i _ hn hi0
      have hps : p < t.size := Nat.lt_trans hlt hi
      obtain ⟨h₁, hk₁⟩ := h.reattach hn hi0 hpar
      obtain ⟨t', e, hrev⟩ := reviveWithin_revives climb p h₁ (hk₁.size_le hps) (by omega)
      rw [hpar, Option.getD_some, modify_size, if_pos hps]
      refine ⟨t', e, .pruned hn ha ?_ ?_⟩
      · rwa [hpar]
      · rwa [hpar]

theorem revive_revives (h : Sound P t) (hi : i < t.size) : ∃ t', t.revive i = .ok t' ∧ Revives t i t' :=
  reviveWithin_revives (i + 1) i h hi (Nat.lt_succ_self i)

theorem pruneWithin_prunes : ∀ (climb i : Nat) {t : Trie W}, Sound P t → i < t.size → i < climb →
    Prunes t i (pruneWithin climb i t).1 (pruneWithin climb i t).2
  | 0, i, t, _, _, hc => absurd hc (Nat.not_lt_zero i)
  | climb + 1, i, t, h, hi, hc => by
    have hn := Array.getElem?_eq_getElem hi
    rw [pruneWithin, hn]
    dsimp only
    split
    · rename_i hstop
      exact .stop hn hstop
    · rename_i hgo
      have hgo : stops i t.nodes[i] = false := by simpa [stops] using hgo
      have hi0 : i ≠ 0 := by
        rintro rfl
        simp [stops, root] at hgo
      obtain ⟨p, l, hpar, hlt, -⟩ := h.parent i _ hn hi0
      obtain ⟨h₁, hk₁⟩ := h.detach hi0 t.nodes[i] p
      refine .climb hn hgo (by rw [hpar]; exact Nat.lt_trans hlt hi) ?_
      rw [hpar, Option.getD_some]
      exact pruneWithin_prunes climb p h₁ (hk₁.size_le (Nat.lt_trans hlt hi)) (by omega)

theorem foldl_cleans (key : String) : ∀ (is : List Nat) (t : Trie W) (count : Nat), Sound P t → (∀ i ∈ is, i < t.size) →
    ∃ more t', is.foldl (stopWaiting key) (count, t) = (count + more, t') ∧ Cleans key is t more t'
  | [], t, count, _, _ => ⟨0, t, rfl, .nil⟩
  | i :: is, t, count, h, his => by
    have hi := his i List.mem_cons_self
    have h₁ : Sound P (t.modify i (fun m => { m with waiting := m.waiting.erase key })) :=
      h.modify i (fun _ => rfl) (fun _ => rfl) (fun _ _ ha => ha) (fun _ _ _ _ hkc => .inl hkc)
    have hk₁ : Keeps t (t.modify i (fun m => { m with waiting := m.waiting.erase key })) :=
      keeps_modify t i (fun _ => rfl) (fun _ => rfl)
    have hprunes := pruneWithin_prunes (i + 1) i h₁ (hk₁.size_le hi) (Nat.lt_succ_self i)
    obtain ⟨h₂, hk₂⟩ := pruneWithin_spec (i + 1) i h₁
    obtain ⟨more, t', e, hcleans⟩ := foldl_cleans key is _ (count + _) h₂
      (fun j hj => hk₂.size_le (hk₁.size_le (his j (List.mem_cons_of_mem _ hj))))
    exact ⟨_, t', by rw [List.foldl_cons, ← Nat.add_assoc]; exact e, .cons hprunes hcleans⟩

theorem cleanup_cleans (h : Sound P t) (l : Literal W) :
    Cleans l.variant (t.waitingFor l.variant) t (t.cleanup l).1 (t.cleanup l).2 := by
  obtain ⟨more, t', e, hcleans⟩ := foldl_cleans l.variant (t.waitingFor l.variant) t 0 h
    (fun i hi => List.mem_range.1 (List.mem_filter.1 hi).1)
  have hcleanup : t.cleanup l = (0 + more, t') := e
  rw [hcleanup, Nat.zero_add]
  exact hcleans

/-! ## What is held is kept -/

/-- **A node that is held is never lost.**  In every trie that calls on its own nodes lead to, a node that was handed out
for some literals is completed to a rule with as many, of the same ids and in the same order; calls on nodes of the trie
succeed, but the root is not completed; and no climb, of the one that brings a node back, of the one behind it that brings
its child back, of completing a node and of cleaning up, is ended by its bound. -/
theorem handed_of_reached (h : Reached t) :
    (∀ (i : Nat) (ls : List (Literal W)) (head : Literal W), Handed t i ls → ls ≠ [] →
      ∃ body, t.complete i head = .ok ⟨head, body⟩ ∧ body.map Literal.id = ls.map Literal.id) ∧
    (∀ call : Call W, (∀ i ∈ call.node?, i < t.size) → ∃ t', Step t call t') ∧
    (∀ i < t.size, ∀ head, (∃ rule, t.complete i head = .ok rule) ↔ i ≠ root) ∧
    (∀ head, t.complete root head = .error (.fault ("empty derivation for `" ++ head.text ++ "`"))) ∧
    (∀ i < t.size, (∃ π, Path t i π) ∧ ∃ t', t.revive i = .ok t' ∧ Revives t i t' ∧
      ∀ c < t'.size, ∃ t'', t'.revive c = .ok t'' ∧ Revives t' c t'') ∧
    ∀ l, Cleans l.variant (t.waitingFor l.variant) t (t.cleanup l).1 (t.cleanup l).2 := by
  have hsound := h.sound
  refine ⟨fun i ls head hheld hne => ?_, hsound.exists_step, fun i hi head => hsound.isOk_complete_iff hi head,
    complete_root hsound, fun i hi => ⟨?_, ?_⟩, cleanup_cleans hsound⟩
  · obtain ⟨-, π, hπ, hids⟩ := hheld.path
    refine ⟨π, complete_of_path hsound hπ (fun e => hne ?_) head, hids⟩
    rw [e] at hids
    exact List.map_eq_nil_iff.1 hids.symm
  · obtain ⟨π, hπ, -⟩ := hsound.exists_path hi
    exact ⟨π, hπ⟩
  · obtain ⟨t', e, hrev⟩ := revive_revives hsound hi
    obtain ⟨t₁, e₁, hsound₁, -⟩ := revive_spec hsound hi
    obtain rfl : t' = t₁ := Except.ok.inj (e.symm.trans e₁)
    exact ⟨t', e, hrev, fun c hc => revive_revives hsound₁ hc⟩

namespace Regrown

/-- A node for the only literal of a path. -/
def made (a : Literal W) : Trie W :=
  ⟨#[⟨none, none, (∅ : Std.HashMap String Nat).insert a.id 1, ∅, true⟩, ⟨some a, some 0, ∅, ∅, true⟩]⟩

/-- The same with a wait at it. -/
def waiting (a m : Literal W) : Trie W :=
  ⟨#[⟨none, none, (∅ : Std.HashMap String Nat).insert a.id 1, ∅, true⟩,
    ⟨some a, some 0, ∅, (∅ : Std.HashSet String).insert m.variant, true⟩]⟩

/-- The same when the wait was in vain. -/
def pruned (a m : Literal W) : Trie W :=
  ⟨#[⟨none, none, ((∅ : Std.HashMap String Nat).insert a.id 1).erase a.id, ∅, true⟩,
    ⟨some a, some 0, ∅, ((∅ : Std.HashSet String).insert m.variant).erase m.variant, false⟩]⟩

theorem made_spec (a : Literal W) : (empty : Trie W).update root a = .ok (1, made a) := by
  simp [update, made, empty, root, revive, reviveWithin, size, modify, bind, Except.bind, pure, Except.pure]

theorem waiting_spec (a m : Literal W) : (made a).wait 1 m = .ok (waiting a m) := by
  simp [wait, made, waiting, revive, reviveWithin, size, modify, bind, Except.bind, pure, Except.pure]

theorem pruned_spec (a m : Literal W) : (waiting a m).cleanup m = (1, pruned a m) := by
  simp [cleanup, waiting, pruned, stopWaiting, pruneWithin, size, modify, root, TrieNode.key, List.range_succ,
    Std.HashSet.size_insert]

theorem step_wait (a m : Literal W) : Step (made a) (.wait 1 m) (waiting a m) :=
  ⟨fun i hi => by cases hi; exact Nat.one_lt_two, waiting_spec a m⟩

theorem step_cleanup (a m : Literal W) : Step (waiting a m) (.cleanup m) (pruned a m) :=
  ⟨fun i hi => (by cases hi), by rw [Call.apply, pruned_spec]⟩

/-- The node is still handed out after it was pruned. -/
theorem handed_pruned (a m : Literal W) : Handed (pruned a m) 1 [a] :=
  (((Handed.root .empty).update (made_spec a)).later (step_wait a m)).later (step_cleanup a m)

def found : Literal ℚ := ⟨1, ⟨"a", 0⟩, []⟩
def awaited : Literal ℚ := ⟨1, ⟨"m", 0⟩, []⟩
def head : Literal ℚ := ⟨1, ⟨"h", 0⟩, []⟩

end Regrown

open Regrown in
/-- What was resolved for a node that is pruned by now is still the body of the rule that completes it. -/
theorem handed_of_reached_pruned : Reached (pruned found awaited) ∧ Handed (pruned found awaited) 1 [found] ∧
    (∃ n, (pruned found awaited).nodes[1]? = some n ∧ n.alive = false) ∧
    ∃ body, (pruned found awaited).complete 1 head = .ok ⟨head, body⟩ ∧ body.map Literal.id = [found.id] := by
  have hheld := handed_pruned found awaited
  exact ⟨hheld.reached, hheld, ⟨_, rfl, rfl⟩, (handed_of_reached hheld.reached).1 1 [found] head hheld (List.cons_ne_nil _ _)⟩

end Trie
end Credence
