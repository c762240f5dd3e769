import Credence.Diagram.Collect
import Credence.Proofs.Connectives
/-!
# What a collection keeps

The nodes found from the referenced functions are closed under branches (`reachable_closed`), so freeing the others
leaves every kept node with live branches.  A collection gives a diagram that is part of the one before, with the
referenced functions in it and nothing remembered (`collect_spec`).
-/
namespace Credence
namespace Diagram

variable {d e : Diagram} {f g : Handle} {n : Node} {a : Nat → Bool}

/-! ## Reachable nodes -/

/-- A branch that is a node is among the handles. -/
def Holds (d : Diagram) (found : Std.HashSet Handle) (f : Handle) : Prop := ∀ n, d.node? f = some n → f ∈ found

/-- The branches of a node are among the handles. -/
def Covers (d : Diagram) (found : Std.HashSet Handle) (f : Handle) : Prop :=
  ∀ n, d.node? f = some n → d.Holds found n.low ∧ d.Holds found n.high

theorem Holds.mono {found found' : Std.HashSet Handle} (h : d.Holds found f) (hs : ∀ g ∈ found, g ∈ found') :
    d.Holds found' f := fun n hn => hs f (h n hn)

theorem Covers.mono {found found' : Std.HashSet Handle} (h : d.Covers found f) (hs : ∀ g ∈ found, g ∈ found') :
    d.Covers found' f := fun n hn => ⟨(h n hn).1.mono hs, (h n hn).2.mono hs⟩

/-- What a search adds: the node it starts from, and with each new node its branches. -/
theorem Valid.reachFrom_spec (hd : d.Valid) : ∀ (depth : Nat) (seen : Std.HashSet Handle) (f : Handle),
    d.varCount < depth + d.level f → (∀ g ∈ seen, g ∈ d.reachFrom depth seen f) ∧ d.Holds (d.reachFrom depth seen f) f ∧
      ∀ g ∈ d.reachFrom depth seen f, g ∈ seen ∨ d.Covers (d.reachFrom depth seen f) g
  | 0,         seen, f, hdepth => by
    have := hd.level_le f
    omega
  | depth + 1, seen, f, hdepth => by
    unfold reachFrom
    cases hn : d.node? f with
    | none => exact ⟨fun _ h => h, (fun n h => by rw [hn] at h; cases h), fun _ h => .inl h⟩
    | some n =>
      simp only
      split
      · rename_i hseen
        exact ⟨fun _ h => h, fun _ _ => Std.HashSet.contains_iff_mem.1 hseen, fun _ h => .inl h⟩
      · obtain ⟨hl, hh⟩ := hd.below f n hn
        obtain ⟨hsub₁, hlow, hnew₁⟩ := hd.reachFrom_spec depth (seen.insert f) n.low (by omega)
        obtain ⟨hsub₂, hhigh, hnew₂⟩ := hd.reachFrom_spec depth (d.reachFrom depth (seen.insert f) n.low) n.high (by omega)
        generalize d.reachFrom depth (seen.insert f) n.low = found₁ at hsub₁ hlow hnew₁ hsub₂ hhigh hnew₂ ⊢
        generalize d.reachFrom depth found₁ n.high = found₂ at hsub₂ hhigh hnew₂ ⊢
        have hsub : ∀ g ∈ seen.insert f, g ∈ found₂ := fun g hg => hsub₂ g (hsub₁ g hg)
        refine ⟨fun g hg => hsub g (Std.HashSet.mem_insert.2 (.inr hg)),
          fun _ _ => hsub f (Std.HashSet.mem_insert.2 (.inl (beq_self_eq_true f))), fun g hg => ?_⟩
        rcases hnew₂ g hg with hg | hg
        · rcases hnew₁ g hg with hg | hg
          · rcases Std.HashSet.mem_insert.1 hg with hg | hg
            · rw [← eq_of_beq hg]
              refine .inr (fun m hm => ?_)
              rw [hn] at hm
              injection hm with hm
              exact hm ▸ ⟨hlow.mono hsub₂, hhigh⟩
            · exact .inl hg
          · exact .inr (hg.mono hsub₂)
        · exact .inr hg

/-- **The reachable nodes** hold their roots and, with every node, its branches. -/
theorem Valid.reachable_closed (hd : d.Valid) (roots : List Handle) :
    (∀ f ∈ roots, d.Holds (d.reachable roots) f) ∧ ∀ g ∈ d.reachable roots, d.Covers (d.reachable roots) g := by
  have key : ∀ (roots : List Handle) (seen : Std.HashSet Handle), (∀ g ∈ seen, d.Covers seen g) →
      let found := roots.foldl (d.reachFrom (d.varCount + 1)) seen
      (∀ g ∈ seen, g ∈ found) ∧ (∀ f ∈ roots, d.Holds found f) ∧ ∀ g ∈ found, d.Covers found g := by
    intro roots
    induction roots with
    | nil => exact fun seen hseen => ⟨fun _ h => h, fun _ h => (nomatch h), hseen⟩
    | cons f roots ih =>
      intro seen hseen
      obtain ⟨hsub, hf, hnew⟩ := hd.reachFrom_spec (d.varCount + 1) seen f (by omega)
      obtain ⟨hsub', hroots, hall⟩ := ih (d.reachFrom (d.varCount + 1) seen f) (fun g hg => by
        rcases hnew g hg with hg | hg
        · exact (hseen g hg).mono hsub
        · exact hg)
      refine ⟨fun g hg => hsub' g (hsub g hg), fun g hg => ?_, hall⟩
      rcases List.mem_cons.1 hg with rfl | hg
      · exact hf.mono hsub'
      · exact hroots g hg
  exact (key roots ∅ (fun g hg => by simp at hg)).2

/-! ## Freeing slots -/

/-- The diagram `e` is `d` with the slots in `gone` freed. -/
structure Swept (d : Diagram) (gone : List Nat) (e : Diagram) : Prop where
  node    : ∀ f, e.node? f = if f.index ∈ gone then none else d.node? f
  size    : e.nodes.size = d.nodes.size
  unique  : ∀ (n : Node) (f : Handle), e.unique[n]? = some f ↔ e.node? f = some n
  free    : ∀ s ∈ e.free, 2 ≤ s ∧ s < e.nodes.size ∧ e.node? ⟨s⟩ = none
  nodup   : e.free.Nodup
  levelOf : e.levelOf = d.levelOf
  varAt   : e.varAt = d.varAt
  refs    : e.refs = d.refs

theorem Sound.swept (hd : d.Sound) : d.Swept [] d := ⟨fun _ => rfl, rfl, hd.unique, hd.free, hd.nodup, rfl, rfl, rfl⟩

theorem node?_lt (hn : d.node? f = some n) : f.index < d.nodes.size := by
  by_contra hge
  rw [node?, Array.getD_eq_getD_getElem?, Array.getElem?_eq_none (Nat.le_of_not_lt hge)] at hn
  cases hn

/-- The diagram without the node in a slot. -/
def dropSlot (d : Diagram) (slot : Nat) (n : Node) : Diagram :=
  { d with nodes := d.nodes.setIfInBounds slot none, free := slot :: d.free, unique := d.unique.erase n }

theorem freeSlot_of_node {slot : Nat} (hn : d.node? ⟨slot⟩ = some n) : d.freeSlot slot = d.dropSlot slot n := by
  simp only [freeSlot, hn, dropSlot]

theorem freeSlot_of_none {slot : Nat} (hn : d.node? ⟨slot⟩ = none) : d.freeSlot slot = d := by simp only [freeSlot, hn]

theorem dropSlot_node {slot : Nat} (hlt : slot < d.nodes.size) (f : Handle) :
    (d.dropSlot slot n).node? f = if f = ⟨slot⟩ then none else d.node? f := by
  by_cases e : f = ⟨slot⟩
  · subst e
    simp [dropSlot, node?, Array.getD_eq_getD_getElem?, hlt]
  · have hne : slot ≠ f.index := fun h => e (by cases f; rw [h])
    rw [if_neg e]
    simp [dropSlot, node?, Array.getD_eq_getD_getElem?, hne]

/-- One slot more. -/
theorem Swept.freeSlot {gone : List Nat} (h : d.Swept gone e) (hd : d.Sound) (slot : Nat) :
    d.Swept (slot :: gone) (e.freeSlot slot) := by
  have hindex : ∀ f : Handle, f.index ∈ slot :: gone ↔ f = ⟨slot⟩ ∨ f.index ∈ gone := by
    rintro ⟨i⟩
    rw [List.mem_cons, Handle.mk.injEq]
  cases hn : e.node? ⟨slot⟩ with
  | none =>
    rw [freeSlot_of_none hn]
    refine ⟨fun f => ?_, h.size, h.unique, h.free, h.nodup, h.levelOf, h.varAt, h.refs⟩
    by_cases e' : f = ⟨slot⟩
    · rw [e', hn, if_pos List.mem_cons_self]
    · simp only [hindex, e', false_or]
      exact h.node f
  | some n =>
    have hlt := node?_lt hn
    have hnode := dropSlot_node (n := n) hlt
    have hdn : d.node? ⟨slot⟩ = some n := by
      have := h.node ⟨slot⟩
      rw [hn] at this
      split at this
      · cases this
      · exact this.symm
    rw [freeSlot_of_node hn]
    refine ⟨fun f => (hnode f).trans ?_, by simp [dropSlot, h.size], fun m f => ?_, fun s hs => ?_, ?_, h.levelOf, h.varAt,
      h.refs⟩
    · by_cases e' : f = ⟨slot⟩
      · simp [e']
      · simp only [hindex, e', if_false, false_or]
        exact h.node f
    · -- the node that went stood in no other slot
      rw [hnode f, show (e.dropSlot slot n).unique = e.unique.erase n from rfl, Std.HashMap.getElem?_erase]
      by_cases em : n = m
      · subst em
        rw [if_pos (beq_self_eq_true n)]
        refine ⟨fun e' => (nomatch e'), fun hf => ?_⟩
        split at hf
        · cases hf
        · rename_i hne
          rw [← h.unique] at hf hn
          rw [hf] at hn
          exact absurd (Option.some.inj hn) hne
      · rw [if_neg (by simpa using em), h.unique]
        by_cases e' : f = ⟨slot⟩
        · rw [e', hn, if_pos rfl]
          exact ⟨fun e' => absurd (Option.some.inj e') em, fun e' => nomatch e'⟩
        · rw [if_neg e']
    · rw [hnode ⟨s⟩, show (e.dropSlot slot n).nodes.size = e.nodes.size from Array.size_setIfInBounds]
      rcases List.mem_cons.1 hs with rfl | hs
      · exact ⟨hd.two_le hdn, hlt, if_pos rfl⟩
      · obtain ⟨h1, h2, h3⟩ := h.free s hs
        refine ⟨h1, h2, ?_⟩
        rw [h3, ite_self]
    · refine List.nodup_cons.2 ⟨fun hs => ?_, h.nodup⟩
      have := (h.free slot hs).2.2
      rw [hn] at this
      cases this

theorem Swept.foldl (hd : d.Sound) : ∀ (slots : List Nat) {gone : List Nat} {e : Diagram}, d.Swept gone e →
    d.Swept (slots.reverse ++ gone) (slots.foldl Diagram.freeSlot e)
  | [],            gone, e, h => h
  | slot :: slots, gone, e, h => by
    rw [List.reverse_cons, List.append_assoc]
    exact Swept.foldl hd slots (h.freeSlot hd slot)

/-- What is left is part of what there was. -/
theorem Swept.keeps {gone : List Nat} (h : d.Swept gone e) : e.Keeps d := by
  refine ⟨fun f n hn => ?_, h.levelOf.symm, h.varAt.symm, h.refs.symm⟩
  rw [h.node] at hn
  split at hn
  · cases hn
  · exact hn

/-- Freeing slots leaves a valid diagram when the nodes left have their branches. -/
theorem Swept.valid {gone : List Nat} (h : d.Swept gone e) (hd : d.Valid)
    (hlive : ∀ f n, e.node? f = some n → e.Live n.low ∧ e.Live n.high) : e.Valid := by
  have hk := h.keeps
  have hnone : ∀ {f}, d.node? f = none → e.node? f = none := fun hn => by rw [h.node, hn, ite_self]
  have hcount : e.varCount = d.varCount := hk.varCount.symm
  refine ⟨⟨by rw [h.size]; exact hd.sound.size, hnone hd.sound.bot, hnone hd.sound.top, fun f n hn => ?_,
    fun f n hn => hd.sound.reduced f n (hk.within f n hn), hlive, h.unique, h.free, h.nodup⟩,
    ⟨by rw [h.levelOf, h.varAt]; exact hd.ordered.size, ?_, ?_⟩, fun f n hn => ?_⟩
  · rw [hcount]
    exact hd.sound.var f n (hk.within f n hn)
  · rw [hcount, h.levelOf, h.varAt]
    exact hd.ordered.level
  · rw [hcount, h.levelOf, h.varAt]
    exact hd.ordered.var
  · obtain ⟨h1, h2⟩ := hlive f n hn
    rw [← hk.level hd.sound (live_node hn), ← hk.level hd.sound h1, ← hk.level hd.sound h2]
    exact hd.below f n (hk.within f n hn)

/-! ## References -/

/-- References matter to collections only. -/
theorem Ready.setRefs (hd : d.Ready) (refs : List (Handle × Nat)) : ({ d with refs := refs } : Diagram).Ready := by
  have hs := hd.valid.sound
  have ho := hd.valid.ordered
  have hv : ({ d with refs := refs } : Diagram).Valid :=
    ⟨⟨hs.size, hs.bot, hs.top, hs.var, hs.reduced, hs.live, hs.unique, hs.free, hs.nodup⟩, ⟨ho.size, ho.level, ho.var⟩,
      hd.valid.below⟩
  exact ⟨hv, hd.memo.keep (fun _ _ h => h) hd.valid hv⟩

theorem mem_addRef (f : Handle) : ∀ refs : List (Handle × Nat), f ∈ (addRef f refs).map Prod.fst
  | []           => List.mem_cons_self
  | (g, n) :: rs => by
    unfold addRef
    split
    · rename_i e
      exact e ▸ List.mem_cons_self
    · exact List.mem_cons_of_mem _ (mem_addRef f rs)

/-! ## Collections -/

/-- A node is garbage when it was not found from the references. -/
theorem mem_garbage (hn : d.node? f = some n) : f.index ∈ d.garbage ↔ f ∉ d.reachable d.roots := by
  have hlt := node?_lt hn
  simp [garbage, hn, hlt]

/-- **A collection** leaves part of the diagram, with every referenced function. -/
theorem collect_spec (hd : d.Ready) :
    d.collect.2.Ready ∧ d.collect.2.Keeps d ∧ ∀ f ∈ d.roots, d.Live f → d.collect.2.Live f := by
  obtain ⟨hroots, hclosed⟩ := hd.valid.reachable_closed d.roots
  have hsw := Swept.foldl hd.valid.sound d.garbage hd.valid.sound.swept
  unfold collect
  simp only
  generalize d.garbage.foldl Diagram.freeSlot d = e at hsw ⊢
  have hgone : ∀ f : Handle, f.index ∈ d.garbage.reverse ++ [] ↔ f.index ∈ d.garbage := fun f => by simp
  have hlive : ∀ {f}, d.Live f → d.Holds (d.reachable d.roots) f → e.Live f := by
    intro f hf hh
    refine hf.imp_right (fun hf => hf.imp_right (fun ⟨n, hn⟩ => ⟨n, ?_⟩))
    rw [hsw.node, if_neg]
    · exact hn
    · rw [hgone, mem_garbage hn]
      exact fun h => h (hh n hn)
  have hv : e.Valid := by
    refine hsw.valid hd.valid (fun f n hn => ?_)
    have hdn := hsw.keeps.within f n hn
    have hfound : f ∈ d.reachable d.roots := by
      by_contra hf
      rw [hsw.node, if_pos ((hgone f).2 ((mem_garbage hdn).2 hf))] at hn
      cases hn
    obtain ⟨h1, h2⟩ := hclosed f hfound n hdn
    obtain ⟨h3, h4⟩ := hd.valid.sound.live f n hdn
    exact ⟨hlive h3 h1, hlive h4 h2⟩
  obtain ⟨hready, -⟩ := hv.setCache (c := e.cache.clear) (fun f g h r hr => by simp [Cache.clear] at hr)
  have hk := hsw.keeps
  exact ⟨hready, ⟨hk.within, hk.levelOf, hk.varAt, hk.refs⟩, fun f hf hl => hlive hl (hroots f hf)⟩

end Diagram
end Credence
