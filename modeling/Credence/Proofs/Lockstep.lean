import Credence.Proofs.Proving
/-!
# Two expansions side by side

Provers with the same rules expand a literal in the same way, whatever they do with the alternatives they find, as long as
one finds none exactly when the other does.  So any relation between alternatives that every step of an expansion keeps
(`Parallel`) holds between what the two find in the end (`Parallel.expand`).

Pruning is such a step: a pruned list has nothing new in it, and one of its alternatives is met whenever one of the
others is (`Prunes`).  So is doing nothing: the literals of a proof come from the target and the rules
(`expand_among`).
-/
namespace Credence
namespace Prover

variable {W : Type} [Weight W] {p q : Prover W} {Q : Literal W → Prop} {R : List (Body W) → List (Body W) → Prop}
  {bs cs bs' cs' : List (Body W)}

/-- A relation between alternatives that expansion keeps, over literals of some kind. -/
structure Parallel (p q : Prover W) (Q : Literal W → Prop) (R : List (Body W) → List (Body W) → Prop) : Prop where
  rules     : q.rules = p.rules
  asserted  : q.snapshot.asserted = p.snapshot.asserted
  occurs    : ∀ l, p.Occurs l → Q l
  empty     : R [] []
  body      : ∀ b : Body W, (∀ l ∈ b, Q l) → R [b] [b]
  append    : ∀ {bs cs bs' cs' : List (Body W)}, R bs cs → R bs' cs' → R (bs ++ bs') (cs ++ cs')
  combine   : ∀ {bs cs bs' cs' : List (Body W)}, R bs cs → R bs' cs' → R (combine bs bs') (combine cs cs')
  normalize : ∀ {bs cs : List (Body W)}, R bs cs → R (normalize p.prune bs) (normalize q.prune cs)
  isEmpty   : ∀ {bs cs : List (Body W)}, R bs cs → bs.isEmpty = cs.isEmpty

/-- Two memos with related entries for the same ids. -/
def Alongside (R : List (Body W) → List (Body W) → Prop) (memo memo' : Memo W) : Prop :=
  ∀ id : String, Option.Rel R memo[id]? memo'[id]?

/-- What two expansions have in common at every moment. -/
structure Related (R : List (Body W) → List (Body W) → Prop) (x y : Expansion W × Memo W) : Prop where
  bodies : R x.1.bodies y.1.bodies
  cut    : x.1.cut = y.1.cut
  memo   : Alongside R x.2 y.2

omit [Weight W] in
theorem Alongside.insert {memo memo' : Memo W} (h : Alongside R memo memo') (hb : R bs cs) (id : String) :
    Alongside R (memo.insert id bs) (memo'.insert id cs) := by
  intro k
  rw [Std.HashMap.getElem?_insert, Std.HashMap.getElem?_insert]
  split
  · exact .some hb
  · exact h k

/-- Two ways to expand a literal that keep memos side by side. -/
def Alike (Q : Literal W → Prop) (R : List (Body W) → List (Body W) → Prop)
    (ex ex' : Literal W → Memo W → Expansion W × Memo W) : Prop :=
  ∀ l memo memo', Q l → Alongside R memo memo' → Related R (ex l memo) (ex' l memo')

section

variable {ex ex' : Literal W → Memo W → Expansion W × Memo W}

theorem Parallel.expandBody (h : p.Parallel q Q R) (hex : Alike Q R ex ex') : ∀ (body : Body W)
    {x y : Expansion W × Memo W}, (∀ l ∈ body, Q l) → Related R x y →
    Related R (Prover.expandBody ex body x.1 x.2) (Prover.expandBody ex' body y.1 y.2)
  | [],      x, y, _,  hr => hr
  | l :: ls, x, y, hQ, hr => by
    obtain ⟨hl, hls⟩ := List.forall_mem_cons.1 hQ
    have hsub := hex l x.2 y.2 hl hr.memo
    unfold Prover.expandBody
    generalize ex l x.2 = sub at hsub ⊢
    generalize ex' l y.2 = sub' at hsub ⊢
    have hcut : minCut x.1.cut sub.1.cut = minCut y.1.cut sub'.1.cut := by rw [hr.cut, hsub.cut]
    simp only
    rw [h.isEmpty hsub.bodies, hcut]
    split
    · exact ⟨h.empty, rfl, hsub.memo⟩
    · exact h.expandBody hex ls (x := (⟨_, _⟩, _)) (y := (⟨_, _⟩, _)) hls
        ⟨h.combine hr.bodies hsub.bodies, rfl, hsub.memo⟩

theorem Parallel.expandRules (h : p.Parallel q Q R) (hex : Alike Q R ex ex') : ∀ (rs : List (GroundRule W))
    {x y : Expansion W × Memo W}, (∀ r ∈ rs, ∀ l ∈ r.body, Q l) → Related R x y →
    Related R (Prover.expandRules ex rs x.1 x.2) (Prover.expandRules ex' rs y.1 y.2)
  | [],      x, y, _,  hr => hr
  | r :: rs, x, y, hQ, hr => by
    obtain ⟨hbody, hrs⟩ := List.forall_mem_cons.1 hQ
    unfold Prover.expandRules
    split
    · exact h.expandRules hex rs (x := (⟨_, _⟩, _)) (y := (⟨_, _⟩, _)) hrs
        ⟨h.append hr.bodies (h.body r.body hbody), hr.cut, hr.memo⟩
    · have hb := h.expandBody hex r.body (x := (⟨[[]], x.1.cut⟩, x.2)) (y := (⟨[[]], y.1.cut⟩, y.2)) hbody
        ⟨h.body [] (List.forall_mem_nil Q), hr.cut, hr.memo⟩
      simp only
      exact h.expandRules hex rs (x := (⟨_, _⟩, _)) (y := (⟨_, _⟩, _)) hrs ⟨h.append hr.bodies hb.bodies, hb.cut, hb.memo⟩

end

/-- **Every step of an expansion keeps the relation.**  By induction on the bound, which is the same on both sides. -/
theorem Parallel.expandWithin (h : p.Parallel q Q R) : ∀ (fuel : Nat) (stack : List String),
    Alike Q R (p.expandWithin fuel stack) (q.expandWithin fuel stack)
  | 0,        stack => fun _ _ _ _ hm => ⟨h.empty, rfl, hm⟩
  | fuel + 1, stack => by
    intro l memo memo' hl hm
    have hid := hm l.id
    unfold Prover.expandWithin
    simp only
    rw [h.rules]
    cases hidx : stack.idxOf? l.id with
    | some depth => exact ⟨h.empty, rfl, hm⟩
    | none =>
      generalize memo[l.id]? = known at hid ⊢
      generalize memo'[l.id]? = known' at hid ⊢
      cases hid with
      | some hknown => exact ⟨hknown, rfl, hm⟩
      | none =>
        have hasserted : q.snapshot.isAsserted l = p.snapshot.isAsserted l := by
          rw [Snapshot.isAsserted, h.asserted, Snapshot.isAsserted]
        have hleaf : R (if p.rules[l.id]?.isNone || p.snapshot.isAsserted l then [[l]] else [])
            (if p.rules[l.id]?.isNone || p.snapshot.isAsserted l then [[l]] else []) := by
          split
          · exact h.body [l] (fun m hm => by rw [List.mem_singleton.1 hm]; exact hl)
          · exact h.empty
        have hQ : ∀ r ∈ p.rules[l.id]?.getD [], ∀ m ∈ r.body, Q m := by
          cases hrs : p.rules[l.id]? with
          | none => exact fun _ hr => nomatch hr
          | some rs => exact fun r hr m hmem => h.occurs m ⟨l.id, r.body, ⟨rs, hrs, r, hr, rfl⟩, hmem⟩
        rw [hasserted]
        generalize (if p.rules[l.id]?.isNone || p.snapshot.isAsserted l then [[l]] else []) = leaf at hleaf ⊢
        have hfound := h.expandRules (h.expandWithin fuel (stack ++ [l.id])) (p.rules[l.id]?.getD [])
          (x := (⟨leaf, .none⟩, memo)) (y := (⟨leaf, .none⟩, memo')) hQ ⟨hleaf, rfl, hm⟩
        simp only at hfound
        generalize Prover.expandRules (p.expandWithin fuel (stack ++ [l.id])) (p.rules[l.id]?.getD []) ⟨leaf, .none⟩ memo =
          found at hfound ⊢
        generalize Prover.expandRules (q.expandWithin fuel (stack ++ [l.id])) (p.rules[l.id]?.getD []) ⟨leaf, .none⟩ memo' =
          found' at hfound ⊢
        have hnorm := h.normalize hfound.bodies
        simp only
        rw [hfound.cut]
        split
        · exact ⟨hnorm, rfl, hfound.memo.insert hnorm l.id⟩
        · exact ⟨hnorm, rfl, hfound.memo⟩

/-- **What two provers find for a target is related.** -/
theorem Parallel.expand (h : p.Parallel q Q R) {target : Literal W} (ht : Q target) :
    R (p.expand target) (q.expand target) := by
  have hempty : Alongside R (∅ : Memo W) ∅ := fun id => by
    rw [Std.HashMap.getElem?_empty]
    exact .none
  have hr := h.expandWithin (p.rules.size + 2) [] target ∅ ∅ ht hempty
  unfold Prover.expand
  rw [h.rules]
  exact hr.bodies

/-! ## What literals proofs are made of -/

/-- Alternatives among literals of some kind, next to themselves. -/
def Among (Q : Literal W → Prop) (bs cs : List (Body W)) : Prop := bs = cs ∧ ∀ b ∈ bs, ∀ l ∈ b, Q l

theorem among_parallel (hQ : ∀ l, p.Occurs l → Q l) : p.Parallel p Q (Among Q) where
  rules := rfl
  asserted := rfl
  occurs := hQ
  empty := ⟨rfl, fun _ h => nomatch h⟩
  body b hb := ⟨rfl, fun c hc => by rw [List.mem_singleton.1 hc]; exact hb⟩
  append := by
    rintro bs _ bs' _ ⟨rfl, h⟩ ⟨rfl, h'⟩
    exact ⟨rfl, fun b hb => (List.mem_append.1 hb).elim (h b) (h' b)⟩
  combine := by
    rintro bs _ bs' _ ⟨rfl, h⟩ ⟨rfl, h'⟩
    refine ⟨rfl, fun b hb l hl => ?_⟩
    obtain ⟨x, hx, y, hy, rfl⟩ := mem_combine.1 hb
    exact (List.mem_append.1 hl).elim (h x hx l) (h' y hy l)
  normalize := by
    rintro bs _ ⟨rfl, h⟩
    refine ⟨rfl, fun b hb l hl => ?_⟩
    obtain ⟨c, hc, rfl⟩ := mem_normalize hb
    obtain ⟨x, hx, rfl⟩ := List.mem_map.1 hl
    exact h c hc _ (canonical_pair hx).2
  isEmpty := by
    rintro bs _ ⟨rfl, -⟩
    rfl

/-- **The literals of a proof** are its target or stand in a rule. -/
theorem expand_among {target l : Literal W} {b : Body W} (hb : b ∈ p.expand target) (hl : l ∈ b) :
    l = target ∨ p.Occurs l :=
  ((among_parallel (Q := fun l => l = target ∨ p.Occurs l) (fun _ h => .inr h)).expand (.inl rfl)).2 b hb l hl

/-! ## Pruned alternatives -/

/-- The alternatives `bs` say what `cs` say, wherever certain literals are true, and have nothing new in them. -/
structure Prunes (bs cs : List (Body W)) : Prop where
  old : ∀ b ∈ bs, ∃ c ∈ cs, SameIds b c
  met : ∀ S : String → Prop, (∀ l : Literal W, l.isCertain = true → S l.id) → AnyMet S cs → AnyMet S bs

theorem SameIds.refl (b : Body W) : SameIds b b := fun _ => Iff.rfl

theorem SameIds.symm {b c : Body W} (h : SameIds b c) : SameIds c b := fun id => (h id).symm

theorem SameIds.trans {b c d : Body W} (h : SameIds b c) (h' : SameIds c d) : SameIds b d := fun id => (h id).trans (h' id)

theorem SameIds.append {b c b' c' : Body W} (h : SameIds b c) (h' : SameIds b' c') : SameIds (b ++ b') (c ++ c') := by
  intro id
  rw [List.map_append, List.map_append, List.mem_append, List.mem_append, h id, h' id]

theorem SameIds.met {b c : Body W} (h : SameIds b c) {S : String → Prop} (hb : Met S b) : Met S c := by
  intro l hl
  obtain ⟨m, hm, e⟩ := List.mem_map.1 ((h l.id).2 (List.mem_map_of_mem hl))
  exact e ▸ hb m hm

/-- Every alternative that is dropped as known has the ids of one that stays or was seen. -/
theorem distinct_covers : ∀ (seen : List (List String)) (bs : List (Body W)), ∀ b ∈ bs,
    ids b ∈ seen ∨ ∃ c ∈ distinct seen bs, SameIds b c
  | seen, c :: bs, b, hb => by
    have hdist : distinct seen (c :: bs) = if seen.contains (ids c) then distinct seen bs
        else (canonical c).map Prod.snd :: distinct (ids c :: seen) bs := rfl
    rw [hdist]
    split
    · rename_i hseen
      rcases List.mem_cons.1 hb with rfl | hb
      · exact .inl (List.contains_iff_mem.1 hseen)
      · exact distinct_covers seen bs b hb
    · rcases List.mem_cons.1 hb with rfl | hb
      · exact .inr ⟨_, List.mem_cons_self, (sameIds_canonical b).symm⟩
      · rcases distinct_covers (ids c :: seen) bs b hb with h | ⟨d, hd, e⟩
        · rcases List.mem_cons.1 h with h | h
          · refine .inr ⟨_, List.mem_cons_self, SameIds.trans (fun id => ?_) (sameIds_canonical c).symm⟩
            rw [← mem_canonical b id, ← mem_canonical c id]
            exact iff_of_eq (congrArg (id ∈ ·) h)
          · exact .inl h
        · exact .inr ⟨d, List.mem_cons_of_mem _ hd, e⟩

theorem Prunes.isEmpty (h : Prunes bs cs) : bs.isEmpty = cs.isEmpty := by
  rw [Bool.eq_iff_iff, List.isEmpty_iff, List.isEmpty_iff]
  constructor
  · rintro rfl
    by_contra hne
    obtain ⟨c, hc⟩ := List.exists_mem_of_ne_nil cs hne
    obtain ⟨b, hb, -⟩ := h.met (fun _ => True) (fun _ _ => trivial) ⟨c, hc, fun _ _ => trivial⟩
    cases hb
  · rintro rfl
    by_contra hne
    obtain ⟨b, hb⟩ := List.exists_mem_of_ne_nil bs hne
    obtain ⟨c, hc, -⟩ := h.old b hb
    cases hc

theorem Prunes.normalize (h : Prunes bs cs) : Prunes (normalize true bs) (normalize false cs) := by
  refine ⟨fun b hb => ?_, fun S hS hm => ?_⟩
  · obtain ⟨b', hb', rfl⟩ := mem_normalize hb
    obtain ⟨c, hc, e⟩ := h.old b' hb'
    rcases distinct_covers [] cs c hc with hseen | ⟨d, hd, e'⟩
    · cases hseen
    · exact ⟨d, hd, (sameIds_canonical b').trans (e.trans e')⟩
  · have hcs : AnyMet S (Prover.normalize false cs) ↔ AnyMet S cs := anyMet_normalize (fun e => by cases e) cs
    exact (anyMet_normalize (fun _ => hS) bs).2 (h.met S hS (hcs.1 hm))

/-- **Pruning goes side by side with not pruning.** -/
theorem prunes_parallel (hrules : q.rules = p.rules) (hasserted : q.snapshot.asserted = p.snapshot.asserted)
    (hp : p.prune = true) (hq : q.prune = false) : p.Parallel q (fun _ => True) Prunes where
  rules := hrules
  asserted := hasserted
  occurs _ _ := trivial
  empty := ⟨(fun _ h => nomatch h), (fun _ _ h => h)⟩
  body b _ := ⟨fun c hc => ⟨c, hc, .refl c⟩, fun _ _ h => h⟩
  append h h' := by
    refine ⟨fun b hb => ?_, fun S hS hm => ?_⟩
    · rcases List.mem_append.1 hb with hb | hb
      · obtain ⟨c, hc, e⟩ := h.old b hb
        exact ⟨c, List.mem_append_left _ hc, e⟩
      · obtain ⟨c, hc, e⟩ := h'.old b hb
        exact ⟨c, List.mem_append_right _ hc, e⟩
    · exact anyMet_append.2 ((anyMet_append.1 hm).imp (h.met S hS) (h'.met S hS))
  combine h h' := by
    refine ⟨fun b hb => ?_, fun S hS hm => ?_⟩
    · obtain ⟨x, hx, y, hy, rfl⟩ := mem_combine.1 hb
      obtain ⟨c, hc, e⟩ := h.old x hx
      obtain ⟨d, hd, e'⟩ := h'.old y hy
      exact ⟨c ++ d, mem_combine.2 ⟨c, hc, d, hd, rfl⟩, e.append e'⟩
    · obtain ⟨h1, h2⟩ := anyMet_combine.1 hm
      exact anyMet_combine.2 ⟨h.met S hS h1, h'.met S hS h2⟩
  normalize h := by
    rw [hp, hq]
    exact h.normalize
  isEmpty h := h.isEmpty

end Prover
end Credence
