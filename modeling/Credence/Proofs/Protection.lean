import Credence.Proofs.Moves
import Credence.Proofs.Transparency
/-!
# References protect, and collections are exact

How often a handle is referenced changes with the references and dereferences of it and with nothing else
(`refCount_apply`).  As long as the count is positive the handle stays live and keeps its function, whatever is built,
moved or collected meanwhile (`run_keeps`).  A slot that is free is no live handle, so what is put there is a new one.
A collection leaves the nodes that are reached from the references and no others (`collect_node`): as many as the
references need (`collect_liveNodes`).
-/
namespace Credence
namespace Diagram

variable {d d' : Diagram} {f g root : Handle} {n : Node}

/-! ## Counts -/

/-- How often a handle is referenced. -/
def refCount (d : Diagram) (f : Handle) : Nat := (d.refs.lookup f).getD 0

/-- The count of a handle after an operation. -/
def Operation.recount (f : Handle) : Operation → Nat → Nat
  | reference g,   count => if f = g then count + 1 else count
  | dereference g, count => if f = g then count - 1 else count
  | _,             count => count

/-- Counts are kept for referenced handles only, one for each. -/
structure Tallied (d : Diagram) : Prop where
  nodup    : d.roots.Nodup
  positive : ∀ p ∈ d.refs, 0 < p.2

theorem lookup_addRef (f g : Handle) : ∀ refs : List (Handle × Nat),
    ((addRef g refs).lookup f).getD 0 = if f = g then (refs.lookup f).getD 0 + 1 else (refs.lookup f).getD 0
  | []           => by
    by_cases e : f = g
    · simp [addRef, e]
    · have he : (f == g) = false := beq_eq_false_iff_ne.2 e
      simp [addRef, List.lookup_cons, he, e]
  | (k, n) :: rs => by
    unfold addRef
    by_cases hk : k = g
    · subst hk
      by_cases e : f = k
      · simp [e]
      · have he : (f == k) = false := beq_eq_false_iff_ne.2 e
        simp [List.lookup_cons, he, e]
    · rw [if_neg hk]
      by_cases e : f = k
      · subst e
        simp [hk]
      · have he : (f == k) = false := beq_eq_false_iff_ne.2 e
        simp only [List.lookup_cons, he]
        exact lookup_addRef f g rs

theorem lookup_dropRef (f g : Handle) : ∀ {refs : List (Handle × Nat)}, (refs.map Prod.fst).Nodup →
    ((dropRef g refs).lookup f).getD 0 = if f = g then (refs.lookup f).getD 0 - 1 else (refs.lookup f).getD 0
  | [],           _  => by simp [dropRef]
  | (k, n) :: rs, hn => by
    obtain ⟨hk, hrs⟩ := List.nodup_cons.1 hn
    unfold dropRef
    by_cases e : f = k
    · subst e
      by_cases hf : f = g
      · subst hf
        -- the only count of this handle
        have hnone : rs.lookup f = none := List.lookup_eq_none_iff.2 (fun p hp => by
          simpa using fun e : f = p.1 => hk (List.mem_map.2 ⟨p, hp, e.symm⟩))
        by_cases h1 : n ≤ 1
        · simp [h1, hnone]
        · simp [h1]
      · simp [hf]
    · have he : (f == k) = false := beq_eq_false_iff_ne.2 e
      by_cases hg : k = g
      · subst hg
        rw [if_pos rfl, if_neg e]
        by_cases h1 : n ≤ 1
        · simp [h1, List.lookup_cons, he]
        · simp [h1, List.lookup_cons, he]
      · rw [if_neg hg]
        simp only [List.lookup_cons, he]
        exact lookup_dropRef f g hrs

theorem mem_of_refCount (h : 0 < d.refCount f) : f ∈ d.roots := by
  unfold refCount at h
  cases hl : d.refs.lookup f with
  | none => simp [hl] at h
  | some count =>
    obtain ⟨l₁, l₂, h, -⟩ := List.lookup_eq_some_iff.1 hl
    exact List.mem_map.2 ⟨(f, count), by simp [h], rfl⟩

theorem Tallied.mem_roots_iff (hc : d.Tallied) : f ∈ d.roots ↔ 0 < d.refCount f := by
  refine ⟨fun hf => ?_, mem_of_refCount⟩
  unfold refCount
  cases hl : d.refs.lookup f with
  | none =>
    obtain ⟨p, hp, rfl⟩ := List.mem_map.1 hf
    simpa using List.lookup_eq_none_iff.1 hl p hp
  | some count =>
    obtain ⟨l₁, l₂, h, -⟩ := List.lookup_eq_some_iff.1 hl
    exact hc.positive (f, count) (by simp [h])

theorem positive_addRef : ∀ {refs : List (Handle × Nat)}, (∀ p ∈ refs, 0 < p.2) → ∀ p ∈ addRef f refs, 0 < p.2
  | [],           _, p, hp => by
    obtain rfl : p = (f, 1) := by simpa [addRef] using hp
    exact Nat.one_pos
  | (k, n) :: rs, h, p, hp => by
    unfold addRef at hp
    split at hp
    · rcases List.mem_cons.1 hp with rfl | hp
      · exact Nat.succ_pos n
      · exact h p (List.mem_cons_of_mem _ hp)
    · rcases List.mem_cons.1 hp with rfl | hp
      · exact h _ List.mem_cons_self
      · exact positive_addRef (fun q hq => h q (List.mem_cons_of_mem _ hq)) p hp

theorem positive_dropRef : ∀ {refs : List (Handle × Nat)}, (∀ p ∈ refs, 0 < p.2) → ∀ p ∈ dropRef f refs, 0 < p.2
  | [],           _, _, hp => nomatch hp
  | (k, n) :: rs, h, p, hp => by
    have hrs : ∀ q ∈ rs, 0 < q.2 := fun q hq => h q (List.mem_cons_of_mem _ hq)
    unfold dropRef at hp
    split at hp
    · split at hp
      · exact hrs p hp
      · rcases List.mem_cons.1 hp with rfl | hp
        · show 0 < n - 1
          omega
        · exact hrs p hp
    · rcases List.mem_cons.1 hp with rfl | hp
      · exact h _ List.mem_cons_self
      · exact positive_dropRef hrs p hp

theorem Tallied.apply (hc : d.Tallied) (hd : d.Ready) (op : Operation) (hop : ∀ f ∈ op.operands, d.Live f) :
    (op.apply d).Tallied := by
  have hrefs := (hd.effect op hop).refs
  have hkeep : op.rerefs d.refs = d.refs → (op.apply d).Tallied := fun h =>
    ⟨by rw [roots, hrefs, h]; exact hc.nodup, by rw [hrefs, h]; exact hc.positive⟩
  cases op with
  | reference f =>
    refine ⟨?_, by rw [hrefs]; exact positive_addRef hc.positive⟩
    rw [roots, hrefs, Operation.rerefs, addRef_keys]
    split
    · exact hc.nodup
    · rename_i hf
      exact List.nodup_append.2 ⟨hc.nodup, List.nodup_singleton f, fun a ha b hb e => hf (List.mem_singleton.1 hb ▸ e ▸ ha)⟩
  | dereference f =>
    refine ⟨?_, by rw [hrefs]; exact positive_dropRef hc.positive⟩
    rw [roots, hrefs]
    exact hc.nodup.sublist (dropRef_keys f d.refs)
  | _ => exact hkeep rfl

theorem Reached.tallied {capacity : Nat} {growth : Float} (h : Reached capacity growth d) : d.Tallied := by
  induction h with
  | empty => exact ⟨List.nodup_nil, fun _ hp => nomatch hp⟩
  | step op hr hop ih => exact ih.apply hr.ready op hop

/-- **A count changes with references and dereferences only.** -/
theorem refCount_apply (hc : d.Tallied) (hd : d.Ready) (op : Operation) (hop : ∀ f ∈ op.operands, d.Live f) (f : Handle) :
    (op.apply d).refCount f = op.recount f (d.refCount f) := by
  have hrefs := (hd.effect op hop).refs
  unfold refCount
  rw [hrefs]
  cases op with
  | reference g => exact lookup_addRef f g d.refs
  | dereference g => exact lookup_dropRef f g hc.nodup
  | _ => rfl

/-! ## Protection -/

/-- The handle is referenced whenever it is an operation's turn. -/
def Protects (f : Handle) : Diagram → List Operation → Prop
  | _, []        => True
  | d, op :: ops => 0 < d.refCount f ∧ Protects f (op.apply d) ops

/-- **A referenced function survives every run**, by one operation at a time. -/
theorem run_keeps : ∀ (ops : List Operation) {d : Diagram}, d.Ready → d.Admits ops → Protects f d ops → d.Live f →
    (d.run ops).2.Live f ∧ ∀ a, (d.run ops).2.eval f a = d.eval f a
  | [],        _, _,  _,  _,  hf => ⟨hf, fun _ => rfl⟩
  | op :: ops, d, hd, ha, hp, hf => by
    obtain ⟨hl, hval⟩ := (hd.effect op ha.1).kept f (mem_of_refCount hp.1) hf
    obtain ⟨hl', hval'⟩ := run_keeps ops (hd.apply op ha.1) ha.2 hp.2 hl
    exact ⟨hl', fun a => (hval' a).trans (hval a)⟩

/-- A handle stays protected when nobody takes its references back. -/
theorem Reached.protects {capacity : Nat} {growth : Float} : ∀ (ops : List Operation) {d : Diagram},
    Reached capacity growth d → d.Admits ops → 0 < d.refCount f → .dereference f ∉ ops → Protects f d ops
  | [],        _, _, _,  _,  _   => trivial
  | op :: ops, d, h, ha, hc, hno => by
    have hcount : 0 < (op.apply d).refCount f := by
      rw [refCount_apply h.tallied h.ready op ha.1]
      cases op with
      | reference g =>
        rw [Operation.recount]
        split
        · exact Nat.succ_pos _
        · exact hc
      | dereference g =>
        rw [Operation.recount, if_neg]
        · exact hc
        · rintro rfl
          exact hno List.mem_cons_self
      | _ => exact hc
    exact ⟨hc, (h.step op ha.1).protects ops ha.2 hcount (fun hm => hno (List.mem_cons_of_mem _ hm))⟩

/-! ## New nodes -/

/-- A slot that is free or beyond the table is no live handle. -/
theorem Sound.not_live (hd : d.Sound) {slot : Nat} (h : slot ∈ d.free ∨ d.nodes.size ≤ slot) : ¬ d.Live ⟨slot⟩ := by
  have hsize := hd.size
  have hslot : 2 ≤ slot ∧ d.node? ⟨slot⟩ = none := by
    rcases h with h | h
    · exact ⟨(hd.free slot h).1, (hd.free slot h).2.2⟩
    · refine ⟨by omega, ?_⟩
      cases hn : d.node? ⟨slot⟩ with
      | none => rfl
      | some n => exact absurd (node?_lt hn) (Nat.not_lt_of_le h)
  rintro (h | h | ⟨n, hn⟩)
  · have : slot = 0 := congrArg Handle.index h
    omega
  · have : slot = 1 := congrArg Handle.index h
    omega
  · rw [hslot.2] at hn
    cases hn

/-- A node is one that there is, or is put where no live handle is. -/
theorem Sound.make_cases (hd : d.Sound) (n : Node) (hlow : d.Live n.low) :
    d.Live (d.make n).1 ∨ (d.make n).1.index ∈ d.free ∨ d.nodes.size ≤ (d.make n).1.index := by
  unfold make
  split
  · exact .inl hlow
  · split
    · rename_i f hf
      exact .inl (live_node ((hd.unique n f).1 hf))
    · split
      · rename_i slot rest hfree
        exact .inr (.inl (hfree ▸ List.mem_cons_self))
      · exact .inr (.inr (Nat.le_refl _))

/-! ## What is reached -/

/-- What a search finds is reached, or was found before. -/
theorem reaches_of_mem_reachFrom : ∀ (depth : Nat) {seen : Std.HashSet Handle} {f : Handle}, g ∈ d.reachFrom depth seen f →
    g ∈ seen ∨ (∃ n, d.node? g = some n) ∧ d.Reaches f g
  | 0,         _,    _, hg => .inl hg
  | depth + 1, seen, f, hg => by
    unfold reachFrom at hg
    split at hg
    · exact .inl hg
    · rename_i n hn
      split at hg
      · exact .inl hg
      · rcases reaches_of_mem_reachFrom depth hg with hg | ⟨hnode, hr⟩
        · rcases reaches_of_mem_reachFrom depth hg with hg | ⟨hnode, hr⟩
          · rcases Std.HashSet.mem_insert.1 hg with e | hg
            · exact eq_of_beq e ▸ .inr ⟨⟨n, hn⟩, .refl f⟩
            · exact .inl hg
          · exact .inr ⟨hnode, .low hn hr⟩
        · exact .inr ⟨hnode, .high hn hr⟩

theorem reaches_of_mem_reachable (roots : List Handle) (hg : g ∈ d.reachable roots) :
    (∃ n, d.node? g = some n) ∧ ∃ root ∈ roots, d.Reaches root g := by
  have key : ∀ (roots : List Handle) (seen : Std.HashSet Handle), g ∈ roots.foldl (d.reachFrom (d.varCount + 1)) seen →
      g ∈ seen ∨ (∃ n, d.node? g = some n) ∧ ∃ root ∈ roots, d.Reaches root g := by
    intro roots
    induction roots with
    | nil => exact fun seen hg => .inl hg
    | cons root roots ih =>
      intro seen hg
      rcases ih _ hg with hg | ⟨hnode, root', hroot', hr⟩
      · rcases reaches_of_mem_reachFrom _ hg with hg | ⟨hnode, hr⟩
        · exact .inl hg
        · exact .inr ⟨hnode, root, List.mem_cons_self, hr⟩
      · exact .inr ⟨hnode, root', List.mem_cons_of_mem _ hroot', hr⟩
  exact (key roots ∅ hg).resolve_left (by simp)

/-- Handles that are closed under branches hold all that is reached from one of them. -/
theorem Holds.reaches {found : Std.HashSet Handle} (hclosed : ∀ g ∈ found, d.Covers found g) (hr : d.Reaches f g)
    (hf : d.Holds found f) : d.Holds found g := by
  induction hr with
  | refl => exact hf
  | low hn _ ih => exact ih (hclosed _ (hf _ hn) _ hn).1
  | high hn _ ih => exact ih (hclosed _ (hf _ hn) _ hn).2

/-- **The reachable nodes** are the nodes that a root reaches. -/
theorem Valid.mem_reachable_iff (hd : d.Valid) (roots : List Handle) :
    g ∈ d.reachable roots ↔ (∃ n, d.node? g = some n) ∧ ∃ root ∈ roots, d.Reaches root g := by
  refine ⟨reaches_of_mem_reachable roots, ?_⟩
  rintro ⟨⟨n, hn⟩, root, hroot, hr⟩
  obtain ⟨hroots, hclosed⟩ := hd.reachable_closed roots
  exact Holds.reaches hclosed hr (hroots root hroot) n hn

/-- In a part of a diagram, what is there is reached as before. -/
theorem Within.reaches (h : d'.Within d) (hs' : d'.Sound) (hs : d.Sound) (hr : d.Reaches f g) (hf : d'.Live f) :
    d'.Reaches f g := by
  have hnode : ∀ {f n}, d.node? f = some n → d'.Live f → d'.node? f = some n := by
    intro f n hn hf
    rcases hf with rfl | rfl | ⟨m, hm⟩
    · exact nomatch hs.bot.symm.trans hn
    · exact nomatch hs.top.symm.trans hn
    · rw [← hn, h f m hm, hm]
  induction hr with
  | refl => exact .refl _
  | low hn _ ih => exact .low (hnode hn hf) (ih (hs'.live _ _ (hnode hn hf)).1)
  | high hn _ ih => exact .high (hnode hn hf) (ih (hs'.live _ _ (hnode hn hf)).2)

/-! ## Collections -/

/-- **A collection leaves what is reached from the references.** -/
theorem collect_node (hd : d.Ready) :
    d.collect.2.node? f = some n ↔ d.node? f = some n ∧ ∃ root ∈ d.roots, d.Reaches root f := by
  have hsw := Swept.foldl hd.valid.sound d.garbage hd.valid.sound.swept
  have hcollect : d.collect.2.node? f = (d.garbage.foldl freeSlot d).node? f := rfl
  have hgone : f.index ∈ d.garbage.reverse ++ [] ↔ f.index ∈ d.garbage := by simp
  rw [hcollect, hsw.node]
  constructor
  · intro hn
    split at hn
    · cases hn
    · rename_i hkept
      rw [hgone, mem_garbage hn, Decidable.not_not] at hkept
      exact ⟨hn, (reaches_of_mem_reachable d.roots hkept).2⟩
  · rintro ⟨hn, hreach⟩
    rw [if_neg]
    · exact hn
    · rw [hgone, mem_garbage hn, Decidable.not_not]
      exact (hd.valid.mem_reachable_iff d.roots).2 ⟨⟨n, hn⟩, hreach⟩

theorem collect_roots (hd : d.Ready) : d.collect.2.roots = d.roots :=
  congrArg (List.map Prod.fst) (collect_retains hd).refs

theorem collect_reached (hd : d.Ready) (hr : d.Rooted) (hn : d.collect.2.node? f = some n) :
    ∃ root ∈ d.collect.2.roots, d.collect.2.Reaches root f := by
  obtain ⟨-, root, hroot, hreach⟩ := (collect_node hd).1 hn
  obtain ⟨hd', hk, hlive⟩ := collect_spec hd
  exact ⟨root, collect_roots hd ▸ hroot,
    hk.within.reaches hd'.valid.sound hd.valid.sound hreach (hlive root hroot (hr root hroot))⟩

/-- A table has as many nodes as there are handles of nodes. -/
theorem Sound.liveNodes_eq (hd : d.Sound) {found : Std.HashSet Handle} (h : ∀ f, f ∈ found ↔ ∃ n, d.node? f = some n) :
    d.liveNodes = found.size := by
  have hmem : ∀ {n f}, (n, f) ∈ d.unique.toList ↔ d.node? f = some n := fun {n f} => by
    rw [Std.HashMap.mem_toList_iff_getElem?_eq_some, hd.unique]
  have hnodup : (d.unique.toList.map Prod.snd).Nodup := by
    refine List.pairwise_map.2 (Std.HashMap.distinct_keys_toList.imp_of_mem (fun {p q} hp hq hne e => ?_))
    have hp := hmem.1 hp
    rw [e, hmem.1 hq] at hp
    simp [Option.some.inj hp] at hne
  have hnodup' : found.toList.Nodup := Std.HashSet.distinct_toList.imp (fun hne e => by simp [e] at hne)
  have hperm : (d.unique.toList.map Prod.snd).Perm found.toList := by
    refine (List.perm_ext_iff_of_nodup hnodup hnodup').2 (fun f => ?_)
    rw [Std.HashSet.mem_toList, h, List.mem_map]
    constructor
    · rintro ⟨⟨n, g⟩, hp, rfl⟩
      exact ⟨n, hmem.1 hp⟩
    · rintro ⟨n, hn⟩
      exact ⟨(n, f), hmem.2 hn, rfl⟩
  rw [liveNodes, ← Std.HashMap.length_toList, ← Std.HashSet.length_toList, ← List.length_map Prod.snd]
  exact hperm.length_eq

/-- **After a collection there are as many nodes as the references need.** -/
theorem collect_liveNodes (hd : d.Ready) (hr : d.Rooted) : d.collect.2.liveNodes = d.collect.2.rootedSize := by
  have hd' := (collect_spec hd).1.valid
  refine hd'.sound.liveNodes_eq (fun f => ?_)
  rw [hd'.mem_reachable_iff]
  refine ⟨fun h => h.1, fun h => ⟨h, ?_⟩⟩
  obtain ⟨n, hn⟩ := h
  exact collect_reached hd hr hn

/-! ## Any diagram that can be reached -/

/-- **References protect, and collections are exact.**  A handle's count is what references and dereferences made it.  While
it is positive the handle is live, and it keeps its function through every run of operations.  Free slots, and those still
to come, are no live handles, and a new node is put in one of them: so no operation takes the function from a live handle,
but for the collections, on their own or before and after sifting.  A collection leaves those nodes that the references
reach. -/
theorem protection_of_reached {capacity : Nat} {growth : Float} (h : Reached capacity growth d) :
    (∀ op : Operation, (∀ f ∈ op.operands, d.Live f) → ∀ f, (op.apply d).refCount f = op.recount f (d.refCount f)) ∧
    (∀ f, (f ∈ d.roots ↔ 0 < d.refCount f) ∧ (0 < d.refCount f → d.Live f)) ∧
    (∀ ops f, d.Admits ops → Protects f d ops → d.Live f →
      (d.run ops).2.Live f ∧ ∀ a, (d.run ops).2.eval f a = d.eval f a) ∧
    ((∀ slot, slot ∈ d.free ∨ d.nodes.size ≤ slot → ¬ d.Live ⟨slot⟩) ∧
      ∀ n : Node, d.Live n.low →
        d.Live (d.make n).1 ∨ (d.make n).1.index ∈ d.free ∨ d.nodes.size ≤ (d.make n).1.index) ∧
    ((∀ op : Operation, (∀ f ∈ op.operands, d.Live f) → op.collects = false → d.Preserves (op.apply d)) ∧
      (d.sift.2 = d ∨ ∃ e, d.collect.2.Preserves e ∧ d.sift.2 = e.collect.2)) ∧
    (∀ f n, d.collect.2.node? f = some n ↔ d.node? f = some n ∧ ∃ root ∈ d.roots, d.Reaches root f) ∧
    d.collect.2.roots = d.roots ∧
    (∀ f n, d.collect.2.node? f = some n → ∃ root ∈ d.collect.2.roots, d.collect.2.Reaches root f) ∧
    d.collect.2.liveNodes = d.collect.2.rootedSize := by
  have hd := h.ready
  have hs := hd.valid.sound
  have hr := h.rooted
  have hc := h.tallied
  refine ⟨fun op hop f => refCount_apply hc hd op hop f, fun f => ⟨hc.mem_roots_iff, fun hf => hr f (mem_of_refCount hf)⟩,
    fun ops f ha hp hf => run_keeps ops hd ha hp hf, ⟨fun _ => hs.not_live, fun n => hs.make_cases n⟩,
    ⟨fun op hop => (hd.effect op hop).preserves, ?_⟩, fun _ _ => collect_node hd, collect_roots hd,
    fun _ _ => collect_reached hd hr, collect_liveNodes hd hr⟩
  exact (sift_stages hd).imp_right (fun ⟨e, he, hsift⟩ => ⟨e, he.preserves, hsift⟩)

namespace Exchanged

/-- The conjunction is referenced, and nothing else. -/
def guarded : Diagram := (Operation.reference xy.1).apply xy.2

/-- The order is turned over, what is not needed goes, a variable is put where it was, and the order is chosen anew. -/
def upkeep : List Operation := [.swap 0, .collect, .var 1, .sift]

end Exchanged

open Exchanged in
/-- A referenced conjunction comes through exchanges, collections and new nodes. -/
theorem protection_of_reached_exchanged : Reached 4 1.5 guarded ∧ guarded.Admits upkeep ∧ Protects xy.1 guarded upkeep ∧
    guarded.Live xy.1 ∧ (guarded.run upkeep).2.Live xy.1 ∧
    (∀ a, (guarded.run upkeep).2.eval xy.1 a = (a 0 && a 1)) ∧
    guarded.collect.2.liveNodes = guarded.collect.2.rootedSize := by
  obtain ⟨h, hxy, -, -, hval⟩ := xy_spec
  have hop : ∀ f ∈ (Operation.reference xy.1).operands, xy.2.Live f := fun f hf => by
    rwa [List.mem_singleton.1 hf]
  have hg : Reached 4 1.5 guarded := h.step (.reference xy.1) hop
  obtain ⟨hlive, hsame⟩ := h.ready.preserves_setRefs (addRef xy.1 xy.2.refs) xy.1 hxy
  have hcount : 0 < guarded.refCount xy.1 := by
    rw [guarded, refCount_apply h.tallied h.ready (.reference xy.1) hop]
    simp [Operation.recount]
  have hadmits : guarded.Admits upkeep :=
    ⟨fun _ hf => (nomatch hf), fun _ hf => (nomatch hf), fun _ hf => (nomatch hf), fun _ hf => (nomatch hf), trivial⟩
  have hprotects : Protects xy.1 guarded upkeep := hg.protects upkeep hadmits hcount (by simp [upkeep])
  obtain ⟨-, -, hrun, -, -, -, -, -, hcollect⟩ := protection_of_reached hg
  obtain ⟨hlast, hkept⟩ := hrun upkeep xy.1 hadmits hprotects hlive
  exact ⟨hg, hadmits, hprotects, hlive, hlast, fun a => ((hkept a).trans (hsame a)).trans (hval a).1, hcollect⟩

end Diagram
end Credence
