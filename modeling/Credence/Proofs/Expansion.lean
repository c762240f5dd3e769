import Mathlib.Data.List.Basic
import Mathlib.Data.List.Perm.Subperm
import Credence.Proof.ProofSet
/-!
# The alternatives of a literal

A set `S` of leaves is what some world has.  Rules lead from `S` to an id when there is a derivation of it
(`Prover.Derives`), and the alternatives that expansion finds say so and no more: some alternative lies in `S` exactly
when the id is derived from `S` (`Prover.expand_spec`).

An expansion that was cut misses the derivations through what was being expanded above it.  What it does find is told by
derivations that avoid the part of the stack from the cut on (`Avoided`): a derivation of `id` can always be shortened to
one that does not pass through `id` again (`Derives.shorten`), so nothing is lost at the cut itself.
-/
namespace Credence
namespace Prover

variable {W : Type} [Weight W] {p : Prover W} {S : String → Prop}

/-! ## Derivations -/

/-- A grounded rule of the prover. -/
def Rule (p : Prover W) (id : String) (body : Body W) : Prop :=
  ∃ rs, p.rules[id]? = some rs ∧ ∃ r ∈ rs, r.body = body

/-- A proof may rest on the id. -/
def Leaf (p : Prover W) (id : String) : Prop := p.rules[id]? = none ∨ p.snapshot.asserted.contains id = true

/-- Rules lead from the leaves in `S` to the id, and none of the ids in `A` is passed. -/
inductive Derives (p : Prover W) (S : String → Prop) (A : List String) : String → Prop
  | leaf {id : String} : id ∉ A → p.Leaf id → S id → Derives p S A id
  | rule {id : String} {body : Body W} : id ∉ A → p.Rule id body → (∀ l ∈ body, Derives p S A l.id) → Derives p S A id

theorem Derives.anti {A B : List String} (h : ∀ x ∈ B, x ∈ A) {id : String} (hd : p.Derives S A id) :
    p.Derives S B id := by
  induction hd with
  | leaf hn hl hs => exact .leaf (fun hb => hn (h _ hb)) hl hs
  | rule hn hr _ ih => exact .rule (fun hb => hn (h _ hb)) hr ih

/-- What the last step of a derivation of `id` can be, when nothing below it passes `id`. -/
def Opens (p : Prover W) (S : String → Prop) (A : List String) (id : String) : Prop :=
  p.Leaf id ∧ S id ∨ ∃ body, p.Rule id body ∧ ∀ l ∈ body, p.Derives S (A ++ [id]) l.id

/-- **A derivation need not pass its own conclusion.** -/
theorem Derives.shorten {A : List String} {id : String} (h : p.Derives S A id) : p.Opens S A id := by
  -- every derivation avoids `id`, or has a part that shows how to open it
  have key : ∀ {x}, p.Derives S A x → p.Derives S (A ++ [id]) x ∨ p.Opens S A id := by
    intro x hx
    induction hx with
    | @leaf x hn hl hs =>
      by_cases e : x = id
      · subst e
        exact .inr (.inl ⟨hl, hs⟩)
      · exact .inl (.leaf (by simp [hn, e]) hl hs)
    | @rule x body hn hr _ ih =>
      by_cases hall : ∀ l ∈ body, p.Derives S (A ++ [id]) l.id
      · by_cases e : x = id
        · subst e
          exact .inr (.inr ⟨body, hr, hall⟩)
        · exact .inl (.rule (by simp [hn, e]) hr hall)
      · push Not at hall
        obtain ⟨l, hl, hno⟩ := hall
        exact .inr ((ih l hl).resolve_left hno)
  rcases key h with h | h
  · cases h with
    | leaf hn => exact absurd (List.mem_append_right A List.mem_cons_self) hn
    | rule hn => exact absurd (List.mem_append_right A List.mem_cons_self) hn
  · exact h

/-! ## Alternatives -/

/-- Everything in the body is there. -/
def Met (S : String → Prop) (b : Body W) : Prop := ∀ l ∈ b, S l.id

/-- Some alternative is met. -/
def AnyMet (S : String → Prop) (bs : List (Body W)) : Prop := ∃ b ∈ bs, Met S b

theorem anyMet_append {bs cs : List (Body W)} : AnyMet S (bs ++ cs) ↔ AnyMet S bs ∨ AnyMet S cs := by
  simp only [AnyMet, List.mem_append]
  constructor
  · rintro ⟨b, hb | hb, hm⟩
    · exact .inl ⟨b, hb, hm⟩
    · exact .inr ⟨b, hb, hm⟩
  · rintro (⟨b, hb, hm⟩ | ⟨b, hb, hm⟩)
    · exact ⟨b, .inl hb, hm⟩
    · exact ⟨b, .inr hb, hm⟩

theorem anyMet_singleton {b : Body W} : AnyMet S [b] ↔ Met S b := by simp [AnyMet]

theorem met_append {b c : Body W} : Met S (b ++ c) ↔ Met S b ∧ Met S c := by
  simp only [Met, List.mem_append, or_imp, forall_and]

theorem anyMet_combine {bs cs : List (Body W)} : AnyMet S (combine bs cs) ↔ AnyMet S bs ∧ AnyMet S cs := by
  simp only [AnyMet, combine, List.mem_flatMap, List.mem_map]
  constructor
  · rintro ⟨_, ⟨b, hb, c, hc, rfl⟩, hm⟩
    exact ⟨⟨b, hb, (met_append.1 hm).1⟩, ⟨c, hc, (met_append.1 hm).2⟩⟩
  · rintro ⟨⟨b, hb, hm⟩, c, hc, hm'⟩
    exact ⟨_, ⟨b, hb, c, hc, rfl⟩, met_append.2 ⟨hm, hm'⟩⟩

/-! ## Normal forms

Sorting the literals of a body and dropping repetitions leaves its ids; so does dropping a body whose ids were there. -/

omit [Weight W] in
theorem mem_dropRepeats (ps : List (String × Literal W)) (id : String) :
    id ∈ (dropRepeats ps).map Prod.fst ↔ id ∈ ps.map Prod.fst := by
  fun_induction dropRepeats ps with
  | case1 a b rest e ih =>
    rw [ih]
    simp only [List.map_cons, List.mem_cons, e]
    tauto
  | case2 a b rest e ih =>
    rw [List.map_cons, List.mem_cons, ih]
    simp only [List.map_cons, List.mem_cons]
  | case3 rest h => rfl

omit [Weight W] in
theorem dropRepeats_sublist (ps : List (String × Literal W)) : (dropRepeats ps).Sublist ps := by
  fun_induction dropRepeats ps with
  | case1 a b rest e ih => exact ih.trans ((List.sublist_cons_self b rest).cons_cons a)
  | case2 a b rest e ih => exact ih.cons_cons a
  | case3 rest h => exact .refl _

theorem mem_canonical (b : Body W) (id : String) : id ∈ (canonical b).map Prod.fst ↔ id ∈ b.map Literal.id := by
  rw [canonical, mem_dropRepeats]
  simp only [List.mem_map, List.mem_mergeSort, Prod.exists, exists_and_right, exists_eq_right]
  simp

theorem canonical_pair {b : Body W} {x : String × Literal W} (h : x ∈ canonical b) : x.1 = x.2.id ∧ x.2 ∈ b := by
  have h' := List.mem_mergeSort.1 ((dropRepeats_sublist _).subset h)
  obtain ⟨l, hl, rfl⟩ := List.mem_map.1 h'
  exact ⟨rfl, hl⟩

theorem met_canonical (b : Body W) : Met S ((canonical b).map Prod.snd) ↔ Met S b := by
  constructor
  · intro h l hl
    have hid := (mem_canonical b l.id).2 (List.mem_map_of_mem hl)
    obtain ⟨x, hx, e⟩ := List.mem_map.1 hid
    rw [← e, (canonical_pair hx).1]
    exact h _ (List.mem_map_of_mem hx)
  · intro h l hl
    obtain ⟨x, hx, rfl⟩ := List.mem_map.1 hl
    exact h _ (canonical_pair hx).2

/-- The ids a body is told apart by. -/
def ids (b : Body W) : List String := (canonical b).map Prod.fst

theorem met_iff_ids (b : Body W) : Met S b ↔ ∀ id ∈ ids b, S id := by
  have h : ∀ id, id ∈ ids b ↔ id ∈ b.map Literal.id := mem_canonical b
  simp only [h, List.mem_map, forall_exists_index, and_imp, forall_apply_eq_imp_iff₂, Met]

theorem anyMet_distinct : ∀ (seen : List (List String)) (bs : List (Body W)),
    AnyMet S (distinct seen bs) ∨ (∃ k ∈ seen, ∀ id ∈ k, S id) ↔ AnyMet S bs ∨ (∃ k ∈ seen, ∀ id ∈ k, S id)
  | _,    []      => by simp only [distinct]
  | seen, b :: bs => by
    have hcons : AnyMet S (b :: bs) ↔ Met S b ∨ AnyMet S bs := by simp [AnyMet]
    have hdist : distinct seen (b :: bs) = if seen.contains (ids b) then distinct seen bs
        else (canonical b).map Prod.snd :: distinct (ids b :: seen) bs := rfl
    rw [hdist]
    split
    · -- the ids of `b` were seen, so `b` adds nothing
      rename_i hseen
      rw [anyMet_distinct seen bs, hcons]
      have hb : Met S b → ∃ k ∈ seen, ∀ id ∈ k, S id := fun h =>
        ⟨ids b, List.contains_iff_mem.1 hseen, (met_iff_ids b).1 h⟩
      tauto
    · have ih := anyMet_distinct (ids b :: seen) bs
      have hhead : AnyMet S ((canonical b).map Prod.snd :: distinct (ids b :: seen) bs) ↔
          Met S b ∨ AnyMet S (distinct (ids b :: seen) bs) := by
        simp [AnyMet, met_canonical]
      have hkeys : (∃ k ∈ ids b :: seen, ∀ id ∈ k, S id) ↔ Met S b ∨ ∃ k ∈ seen, ∀ id ∈ k, S id := by
        simp [met_iff_ids]
      rw [hkeys, or_left_comm, or_left_comm (a := AnyMet S bs)] at ih
      rw [hhead, hcons, or_assoc, or_assoc]
      exact ih

/-- A body of certain literals that is left out is made up for by the one that stays. -/
theorem anyMet_pruneTo (hS : ∀ l : Literal W, l.isCertain = true → S l.id) {n : Nat} : ∀ {bs : List (Body W)},
    (∃ b ∈ bs, isCertainBody b = true ∧ b.length = n) → (AnyMet S (pruneTo n bs) ↔ AnyMet S bs)
  | [],      h => by simp at h
  | b :: bs, h => by
    have hcert : ∀ {c : Body W}, isCertainBody c = true → Met S c := fun {c} hc l hl =>
      hS l (List.all_eq_true.1 hc l hl)
    have hcons : ∀ (c : Body W) (cs : List (Body W)), AnyMet S (c :: cs) ↔ Met S c ∨ AnyMet S cs := by simp [AnyMet]
    unfold pruneTo
    split
    · rename_i hb
      split
      · simp [hcons, hcert hb]
      · -- `b` is certain but not the shortest, and that one is among the rest
        rename_i hlen
        have h' : ∃ c ∈ bs, isCertainBody c = true ∧ c.length = n := by
          obtain ⟨c, hc, h1, h2⟩ := h
          rcases List.mem_cons.1 hc with rfl | hc
          · exact absurd h2 hlen
          · exact ⟨c, hc, h1, h2⟩
        rw [anyMet_pruneTo hS h']
        obtain ⟨c, hc, h1, -⟩ := h'
        have hsome : AnyMet S bs := ⟨c, hc, hcert h1⟩
        simp [hcons, hsome]
    · rename_i hb
      have h' : ∃ c ∈ bs, isCertainBody c = true ∧ c.length = n := by
        obtain ⟨c, hc, h1, h2⟩ := h
        rcases List.mem_cons.1 hc with rfl | hc
        · exact absurd h1 hb
        · exact ⟨c, hc, h1, h2⟩
      rw [hcons, hcons, anyMet_pruneTo hS h']

/-- **Normal forms say the same**, where certain literals are there when they are pruned. -/
theorem anyMet_normalize {prune : Bool} (hS : prune = true → ∀ l : Literal W, l.isCertain = true → S l.id)
    (bs : List (Body W)) : AnyMet S (normalize prune bs) ↔ AnyMet S bs := by
  have hd : AnyMet S (distinct [] bs) ↔ AnyMet S bs := by simpa using anyMet_distinct (S := S) [] bs
  unfold normalize
  cases prune with
  | false => exact hd
  | true =>
    simp only
    cases hs : shortestCertain (distinct [] bs) with
    | none => exact hd
    | some n =>
      obtain ⟨hmem, -⟩ := List.min?_eq_some_iff.1 hs
      obtain ⟨b, hb, e⟩ := List.mem_map.1 hmem
      obtain ⟨hb, hcert⟩ := List.mem_filter.1 hb
      exact (anyMet_pruneTo (hS rfl) ⟨b, hb, hcert, e⟩).trans hd

/-! ## Cuts -/

/-- What a derivation has to avoid to be found under a cut: the stack from the cut on. -/
def Avoided (stack : List String) : Option Nat → List String
  | none   => []
  | some c => stack.drop c

/-- A cut that leaves no more than another. -/
def NoDeeper (c d : Option Nat) : Prop := ∀ n, d = some n → ∃ m, c = some m ∧ m ≤ n

theorem NoDeeper.refl (c : Option Nat) : NoDeeper c c := fun n h => ⟨n, h, Nat.le_refl n⟩

theorem NoDeeper.trans {c d e : Option Nat} (h : NoDeeper c d) (h' : NoDeeper d e) : NoDeeper c e := by
  intro n hn
  obtain ⟨m, hm, hmn⟩ := h' n hn
  obtain ⟨k, hk, hkm⟩ := h m hm
  exact ⟨k, hk, Nat.le_trans hkm hmn⟩

theorem NoDeeper.avoided {c d : Option Nat} (h : NoDeeper c d) (stack : List String) :
    ∀ x ∈ Avoided stack d, x ∈ Avoided stack c := by
  intro x hx
  cases d with
  | none => cases hx
  | some n =>
    obtain ⟨m, rfl, hmn⟩ := h n rfl
    exact List.drop_subset_drop_left stack hmn hx

theorem minCut_left (c d : Option Nat) : NoDeeper (minCut c d) c := by
  rintro n rfl
  cases d with
  | none => exact ⟨n, rfl, Nat.le_refl n⟩
  | some m => exact ⟨min n m, rfl, Nat.min_le_left n m⟩

theorem minCut_right (c d : Option Nat) : NoDeeper (minCut c d) d := by
  rintro n rfl
  cases c with
  | none => exact ⟨n, rfl, Nat.le_refl n⟩
  | some m => exact ⟨min m n, rfl, Nat.min_le_right m n⟩

/-- A cut lies in the stack. -/
def Within (c : Option Nat) (depth : Nat) : Prop := ∀ n, c = some n → n < depth

theorem Within.minCut {c d : Option Nat} {depth : Nat} (hc : Within c depth) (hd : Within d depth) :
    Within (minCut c d) depth := by
  intro n hn
  cases c with
  | none => exact hd n hn
  | some a =>
    cases d with
    | none => exact hc n hn
    | some b =>
      injection hn with hn
      have := hc a rfl
      omega

/-! ## Expansion -/

/-- The alternatives found for an id under a stack. -/
structure Tells (p : Prover W) (S : String → Prop) (stack : List String) (id : String) (e : Expansion W) : Prop where
  sound    : AnyMet S e.bodies → p.Derives S [] id
  complete : p.Derives S (Avoided stack e.cut) id → AnyMet S e.bodies
  cut      : Within e.cut stack.length

/-- What is remembered is all there is. -/
def Remembers (p : Prover W) (S : String → Prop) (memo : Memo W) : Prop :=
  ∀ (id : String) (bs : List (Body W)), memo[id]? = some bs → (AnyMet S bs ↔ p.Derives S [] id)

theorem Remembers.insert {memo : Memo W} (h : p.Remembers S memo) {id : String} {bs : List (Body W)}
    (hb : AnyMet S bs ↔ p.Derives S [] id) : p.Remembers S (memo.insert id bs) := by
  intro id' bs' hbs
  rw [Std.HashMap.getElem?_insert] at hbs
  split at hbs
  · rename_i e
    injection hbs with hbs
    rw [← eq_of_beq e, ← hbs]
    exact hb
  · exact h id' bs' hbs

/-- An id on the stack is cut at its depth: no derivation that keeps clear of the stack from there on uses it. -/
theorem tells_of_mem_stack {stack : List String} {id : String} {depth : Nat} (h : stack.idxOf? id = some depth) :
    p.Tells S stack id ⟨[], some depth⟩ := by
  obtain ⟨hlt, hget, -⟩ := List.idxOf?_eq_some_iff.1 h
  refine ⟨(fun ⟨b, hb, _⟩ => by cases hb), fun hd => ?_, fun n hc => ?_⟩
  · have hmem : id ∈ Avoided stack (some depth) := by
      rw [Avoided, List.drop_eq_getElem_cons hlt, hget]
      exact List.mem_cons_self
    cases hd with
    | leaf hno => exact absurd hmem hno
    | rule hno => exact absurd hmem hno
  · injection hc with hc
    omega

def Expands (p : Prover W) (S : String → Prop) (stack : List String)
    (expand : Literal W → Memo W → Expansion W × Memo W) : Prop :=
  ∀ l memo, p.Remembers S memo → p.Tells S stack l.id (expand l memo).1 ∧ p.Remembers S (expand l memo).2

variable {stack : List String} {expand : Literal W → Memo W → Expansion W × Memo W}

/-- The alternatives of a body in front of which `sofar` stands. -/
structure TellsBody (p : Prover W) (S : String → Prop) (stack : List String) (body : Body W) (sofar e : Expansion W) :
    Prop where
  sound    : AnyMet S e.bodies → AnyMet S sofar.bodies ∧ ∀ l ∈ body, p.Derives S [] l.id
  complete : AnyMet S sofar.bodies → (∀ l ∈ body, p.Derives S (Avoided stack e.cut) l.id) → AnyMet S e.bodies
  deeper   : NoDeeper e.cut sofar.cut
  cut      : Within e.cut stack.length

theorem expandBody_spec (hex : p.Expands S stack expand) : ∀ (body : Body W) (sofar : Expansion W) (memo : Memo W),
    Within sofar.cut stack.length → p.Remembers S memo →
    p.TellsBody S stack body sofar (expandBody expand body sofar memo).1 ∧
      p.Remembers S (expandBody expand body sofar memo).2
  | [],      sofar, memo, hc, hm => ⟨⟨fun h => ⟨h, by simp⟩, fun h _ => h, .refl _, hc⟩, hm⟩
  | l :: ls, sofar, memo, hc, hm => by
    obtain ⟨hl, hm'⟩ := hex l memo hm
    unfold expandBody
    generalize expand l memo = found at hl hm' ⊢
    obtain ⟨sub, memo'⟩ := found
    simp only at hl hm' ⊢
    have hleft := minCut_left sofar.cut sub.cut
    have hright := minCut_right sofar.cut sub.cut
    have hcut := hc.minCut hl.cut
    split
    · rename_i hempty
      refine ⟨⟨(fun ⟨b, hb, _⟩ => nomatch hb), fun _ h => ?_, hleft, hcut⟩, hm'⟩
      have hd := (h l List.mem_cons_self).anti (hright.avoided stack)
      obtain ⟨b, hb, -⟩ := hl.complete hd
      rw [List.isEmpty_iff.1 hempty] at hb
      cases hb
    · obtain ⟨ht, hm''⟩ := expandBody_spec hex ls ⟨combine sofar.bodies sub.bodies, minCut sofar.cut sub.cut⟩ memo' hcut hm'
      refine ⟨⟨fun h => ?_, fun hs h => ?_, ht.deeper.trans hleft, ht.cut⟩, hm''⟩
      · obtain ⟨h1, h2⟩ := ht.sound h
        obtain ⟨h3, h4⟩ := anyMet_combine.1 h1
        exact ⟨h3, List.forall_mem_cons.2 ⟨hl.sound h4, h2⟩⟩
      · obtain ⟨h1, h2⟩ := List.forall_mem_cons.1 h
        have hd := h1.anti ((ht.deeper.trans hright).avoided stack)
        exact ht.complete (anyMet_combine.2 ⟨hs, hl.complete hd⟩) h2

/-- Bodies said to have leaves only have leaves only. -/
def Marked (p : Prover W) (rs : List (GroundRule W)) : Prop :=
  ∀ r ∈ rs, r.leafOnly = true → ∀ l ∈ r.body, p.rules[l.id]? = none

theorem derives_iff_of_none {A : List String} {id : String} (h : p.rules[id]? = none) (hd : p.Derives S A id) : S id := by
  cases hd with
  | leaf _ _ hs => exact hs
  | rule _ hr _ =>
    obtain ⟨rs, hrs, -⟩ := hr
    rw [h] at hrs
    cases hrs

/-- The alternatives that some rules add to `sofar`. -/
structure TellsRules (p : Prover W) (S : String → Prop) (stack : List String) (rs : List (GroundRule W))
    (sofar e : Expansion W) : Prop where
  sound    : AnyMet S e.bodies → AnyMet S sofar.bodies ∨ ∃ r ∈ rs, ∀ l ∈ r.body, p.Derives S [] l.id
  complete : (AnyMet S sofar.bodies ∨ ∃ r ∈ rs, ∀ l ∈ r.body, p.Derives S (Avoided stack e.cut) l.id) → AnyMet S e.bodies
  deeper   : NoDeeper e.cut sofar.cut
  cut      : Within e.cut stack.length

theorem expandRules_spec (hex : p.Expands S stack expand) : ∀ (rs : List (GroundRule W)) (sofar : Expansion W)
    (memo : Memo W), p.Marked rs → Within sofar.cut stack.length → p.Remembers S memo →
    p.TellsRules S stack rs sofar (expandRules expand rs sofar memo).1 ∧
      p.Remembers S (expandRules expand rs sofar memo).2
  | [],      sofar, memo, _,  hc, hm => ⟨⟨.inl, fun h => by simpa [expandRules] using h, .refl _, hc⟩, hm⟩
  | r :: rs, sofar, memo, hk, hc, hm => by
    have hrest : p.Marked rs := fun s hs => hk s (List.mem_cons_of_mem r hs)
    unfold expandRules
    split
    · rename_i hleaf
      have hnone := hk r List.mem_cons_self hleaf
      obtain ⟨ht, hm'⟩ := expandRules_spec hex rs { sofar with bodies := sofar.bodies ++ [r.body] } memo hrest hc hm
      refine ⟨⟨fun h => ?_, fun h => ht.complete ?_, ht.deeper, ht.cut⟩, hm'⟩
      · rcases ht.sound h with h | ⟨s, hs, h⟩
        · refine (anyMet_append.1 h).imp_right (fun h => ⟨r, List.mem_cons_self, fun l hl => ?_⟩)
          exact .leaf List.not_mem_nil (.inl (hnone l hl)) (anyMet_singleton.1 h l hl)
        · exact .inr ⟨s, List.mem_cons_of_mem r hs, h⟩
      · rcases h with h | ⟨s, hs, h⟩
        · exact .inl (anyMet_append.2 (.inl h))
        · rcases List.mem_cons.1 hs with rfl | hs
          · exact .inl (anyMet_append.2 (.inr (anyMet_singleton.2 (fun l hl => derives_iff_of_none (hnone l hl) (h l hl)))))
          · exact .inr ⟨s, hs, h⟩
    · obtain ⟨hb, hm'⟩ := expandBody_spec hex r.body ⟨[[]], sofar.cut⟩ memo hc hm
      generalize expandBody expand r.body ⟨[[]], sofar.cut⟩ memo = found at hb hm' ⊢
      obtain ⟨sub, memo'⟩ := found
      simp only at hb hm' ⊢
      obtain ⟨ht, hm''⟩ := expandRules_spec hex rs ⟨sofar.bodies ++ sub.bodies, sub.cut⟩ memo' hrest hb.cut hm'
      refine ⟨⟨fun h => ?_, fun h => ht.complete ?_, ht.deeper.trans hb.deeper, ht.cut⟩, hm''⟩
      · rcases ht.sound h with h | ⟨s, hs, h⟩
        · exact (anyMet_append.1 h).imp_right (fun h => ⟨r, List.mem_cons_self, (hb.sound h).2⟩)
        · exact .inr ⟨s, List.mem_cons_of_mem r hs, h⟩
      · rcases h with h | ⟨s, hs, h⟩
        · exact .inl (anyMet_append.2 (.inl h))
        · rcases List.mem_cons.1 hs with rfl | hs
          · refine .inl (anyMet_append.2 (.inr (hb.complete (anyMet_singleton.2 (by simp [Met])) (fun l hl => ?_))))
            exact (h l hl).anti (ht.deeper.avoided stack)
          · exact .inr ⟨s, hs, h⟩

/-- All marks of a prover are right. -/
def Sound (p : Prover W) : Prop := ∀ (id : String) (rs : List (GroundRule W)), p.rules[id]? = some rs → p.Marked rs

omit [Weight W] in
theorem length_le_size (hn : stack.Nodup) (hs : ∀ x ∈ stack, x ∈ p.rules) : stack.length ≤ p.rules.size := by
  have hsub : stack ⊆ p.rules.keys := fun x hx => Std.HashMap.mem_keys.2 (hs x hx)
  rw [← Std.HashMap.length_keys]
  exact (List.subperm_of_subset hn hsub).length_le

/-- What follows from the alternatives of the rules of an id, found one level further down. -/
theorem TellsRules.tells {l : Literal W} {rules : Option (List (GroundRule W))} (hrules : p.rules[l.id]? = rules)
    {e : Expansion W} (hS : p.prune = true → ∀ l : Literal W, l.isCertain = true → S l.id)
    (h : p.TellsRules S (stack ++ [l.id]) (rules.getD [])
      ⟨if rules.isNone || p.snapshot.isAsserted l then [[l]] else [], none⟩ e) :
    (AnyMet S (normalize p.prune e.bodies) → p.Derives S [] l.id) ∧
      (∀ A, (∀ x ∈ Avoided (stack ++ [l.id]) e.cut, x ∈ A ++ [l.id]) → p.Derives S A l.id →
        AnyMet S (normalize p.prune e.bodies)) := by
  have hleaf : AnyMet S (if rules.isNone || p.snapshot.isAsserted l then [[l]] else []) ↔ p.Leaf l.id ∧ S l.id := by
    have hcond : (rules.isNone || p.snapshot.isAsserted l) = true ↔ p.Leaf l.id := by
      rw [Bool.or_eq_true, Option.isNone_iff_eq_none, Leaf, hrules]
      rfl
    by_cases hb : (rules.isNone || p.snapshot.isAsserted l) = true
    · rw [if_pos hb, anyMet_singleton]
      simp [Met, hcond.1 hb]
    · rw [if_neg hb]
      simp [AnyMet, mt hcond.2 hb]
  have hrule : ∀ {B : List String}, (∃ r ∈ rules.getD [], ∀ x ∈ r.body, p.Derives S B x.id) ↔
      ∃ body, p.Rule l.id body ∧ ∀ x ∈ body, p.Derives S B x.id := by
    intro B
    constructor
    · rintro ⟨r, hr, hd⟩
      cases rules with
      | none => cases hr
      | some rs => exact ⟨r.body, ⟨rs, hrules, r, hr, rfl⟩, hd⟩
    · rintro ⟨_, ⟨rs, hrs, r, hr, rfl⟩, hd⟩
      rw [hrules] at hrs
      exact ⟨r, by rw [hrs]; exact hr, hd⟩
  constructor
  · intro hm
    rcases h.sound ((anyMet_normalize hS _).1 hm) with hm | hr
    · obtain ⟨h1, h2⟩ := hleaf.1 hm
      exact .leaf List.not_mem_nil h1 h2
    · obtain ⟨body, hb, hd⟩ := hrule.1 hr
      exact .rule List.not_mem_nil hb hd
  · intro A hA hd
    refine (anyMet_normalize hS _).2 (h.complete ?_)
    rcases hd.shorten with hl | ⟨body, hb, hd⟩
    · exact .inl (hleaf.2 hl)
    · exact .inr (hrule.2 ⟨body, hb, fun x hx => (hd x hx).anti hA⟩)

/-- **Expansion under a stack.**  By induction on the bound, which the stack cannot use up: its ids head rules, and none
is there twice. -/
theorem expandWithin_spec (hp : p.Sound) (hS : p.prune = true → ∀ l : Literal W, l.isCertain = true → S l.id) :
    ∀ (fuel : Nat) (stack : List String), fuel + stack.length = p.rules.size + 2 → stack.Nodup →
      (∀ x ∈ stack, x ∈ p.rules) → p.Expands S stack (p.expandWithin fuel stack)
  | 0,        stack, hf, hn, hs => by
    have := length_le_size hn hs
    omega
  | fuel + 1, stack, hf, hn, hs => by
    intro l memo hm
    cases hidx : stack.idxOf? l.id with
    | some depth =>
      simp only [expandWithin, hidx]
      exact ⟨tells_of_mem_stack hidx, hm⟩
    | none =>
      have hout : l.id ∉ stack := List.idxOf?_eq_none_iff.1 hidx
      cases hknown : memo[l.id]? with
      | some known =>
        have hk := hm l.id known hknown
        simp only [expandWithin, hidx, hknown]
        exact ⟨⟨hk.1, hk.2, fun _ h => by cases h⟩, hm⟩
      | none =>
        simp only [expandWithin, hidx, hknown]
        -- nothing is expanded below an id without rules, so what is put on the stack heads one
        have hex : ∀ rs, p.rules[l.id]? = some rs → p.Expands S (stack ++ [l.id]) (p.expandWithin fuel (stack ++ [l.id])) := by
          intro rs hrs
          refine expandWithin_spec hp hS fuel (stack ++ [l.id]) (by simp; omega) ?_ (fun x hx => ?_)
          · exact List.nodup_append.2 ⟨hn, by simp, fun x hx y hy e => hout (by simp_all)⟩
          · rcases List.mem_append.1 hx with hx | hx
            · exact hs x hx
            · rw [List.mem_singleton.1 hx, Std.HashMap.mem_iff_isSome_getElem?, hrs]
              rfl
        have hspec : ∀ sofar : Expansion W, Within sofar.cut (stack ++ [l.id]).length →
            p.TellsRules S (stack ++ [l.id]) (p.rules[l.id]?.getD []) sofar
                (expandRules (p.expandWithin fuel (stack ++ [l.id])) (p.rules[l.id]?.getD []) sofar memo).1 ∧
              p.Remembers S (expandRules (p.expandWithin fuel (stack ++ [l.id])) (p.rules[l.id]?.getD []) sofar memo).2 := by
          intro sofar hc
          cases hrs : p.rules[l.id]? with
          | none => exact ⟨⟨.inl, fun h => by simpa [expandRules] using h, .refl _, hc⟩, hm⟩
          | some rs => exact expandRules_spec (hex rs hrs) rs sofar memo (hp _ rs hrs) hc hm
        obtain ⟨ht, hm'⟩ := hspec ⟨if p.rules[l.id]?.isNone || p.snapshot.isAsserted l then [[l]] else [], none⟩
          (fun _ h => nomatch h)
        generalize expandRules (p.expandWithin fuel (stack ++ [l.id])) (p.rules[l.id]?.getD [])
          ⟨if p.rules[l.id]?.isNone || p.snapshot.isAsserted l then [[l]] else [], none⟩ memo = found at ht hm' ⊢
        obtain ⟨e, memo'⟩ := found
        simp only at ht hm' ⊢
        obtain ⟨hsound, hcomplete⟩ := ht.tells rfl hS
        split
        · rename_i hcut
          -- what was cut below was cut here, and a derivation need not come back here
          have hall : p.Derives S [] l.id → AnyMet S (normalize p.prune e.bodies) := by
            refine hcomplete [] (fun x hx => ?_)
            cases hc : e.cut with
            | none => rw [hc] at hx; cases hx
            | some n =>
              have hlen := ht.cut n hc
              rw [hc] at hx hcut
              have hn : n = stack.length := by simp at hcut hlen; omega
              rw [Avoided, hn, List.drop_left] at hx
              exact hx
          exact ⟨⟨hsound, hall, fun _ h => nomatch h⟩, hm'.insert ⟨hsound, hall⟩⟩
        · rename_i hcut
          cases hc : e.cut with
          | none => rw [hc] at hcut; simp at hcut
          | some n =>
            rw [hc] at hcut
            have hlt : n < stack.length := by simpa using hcut
            refine ⟨⟨hsound, hcomplete _ (fun x hx => ?_), fun m hm => ?_⟩, hm'⟩
            · rw [hc, Avoided, List.drop_append_of_le_length (by omega)] at hx
              exact hx
            · injection hm with hm
              omega

/-- **The alternatives of a target are met exactly when it is derived.** -/
theorem expand_spec (hp : p.Sound) (hS : p.prune = true → ∀ l : Literal W, l.isCertain = true → S l.id)
    (target : Literal W) : AnyMet S (p.expand target) ↔ p.Derives S [] target.id := by
  have hempty : p.Remembers S ∅ := fun id bs h => by simp at h
  obtain ⟨ht, -⟩ := expandWithin_spec hp hS (p.rules.size + 2) [] rfl .nil (fun _ h => nomatch h) target ∅ hempty
  refine ⟨ht.sound, fun hd => ht.complete ?_⟩
  -- nothing lies above the target, so nothing was cut
  cases hc : (p.expandWithin (p.rules.size + 2) [] target ∅).1.cut with
  | none => exact hd
  | some n => exact absurd (ht.cut n hc) (Nat.not_lt_zero n)

/-! ## What proofs consist of -/

/-- The literal stands in a rule of the prover. -/
def Occurs (p : Prover W) (l : Literal W) : Prop := ∃ id body, p.Rule id body ∧ l ∈ body

/-- Every alternative consists of leaves among some literals. -/
def Consists (p : Prover W) (P : Literal W → Prop) (bs : List (Body W)) : Prop := ∀ b ∈ bs, ∀ l ∈ b, p.Leaf l.id ∧ P l

variable {P : Literal W → Prop}

theorem mem_distinct : ∀ {seen : List (List String)} {bs : List (Body W)} {b : Body W}, b ∈ distinct seen bs →
    ∃ c ∈ bs, b = (canonical c).map Prod.snd
  | seen, c :: bs, b, h => by
    unfold distinct at h
    simp only at h
    split at h
    · obtain ⟨d, hd, e⟩ := mem_distinct h
      exact ⟨d, List.mem_cons_of_mem _ hd, e⟩
    · rcases List.mem_cons.1 h with rfl | h
      · exact ⟨c, List.mem_cons_self, rfl⟩
      · obtain ⟨d, hd, e⟩ := mem_distinct h
        exact ⟨d, List.mem_cons_of_mem _ hd, e⟩

theorem pruneTo_sublist (n : Nat) (bs : List (Body W)) : (pruneTo n bs).Sublist bs := by
  fun_induction pruneTo n bs with
  | case1 => exact .refl _
  | case2 b bs _ _ => exact (List.filter_sublist).cons_cons b
  | case3 b bs _ _ ih => exact ih.cons b
  | case4 b bs _ ih => exact ih.cons_cons b

/-- A normal form has canonical alternatives, and no others than there were. -/
theorem mem_normalize {prune : Bool} {bs : List (Body W)} {b : Body W} (h : b ∈ normalize prune bs) :
    ∃ c ∈ bs, b = (canonical c).map Prod.snd := by
  unfold normalize at h
  simp only at h
  split at h
  · exact mem_distinct ((pruneTo_sublist _ _).subset h)
  · exact mem_distinct h

omit [Weight W] in
theorem mem_combine {bs cs : List (Body W)} {b : Body W} : b ∈ combine bs cs ↔ ∃ x ∈ bs, ∃ y ∈ cs, b = x ++ y := by
  simp only [combine, List.mem_flatMap, List.mem_map, eq_comm]

theorem Consists.normalize {bs : List (Body W)} (h : p.Consists P bs) (prune : Bool) :
    p.Consists P (normalize prune bs) := by
  intro b hb l hl
  obtain ⟨c, hc, rfl⟩ := mem_normalize hb
  obtain ⟨x, hx, rfl⟩ := List.mem_map.1 hl
  exact h c hc _ (canonical_pair hx).2

/-- A memo and an expansion with nothing but leaves among some literals. -/
def Built (p : Prover W) (P : Literal W → Prop) (found : Expansion W × Memo W) : Prop :=
  p.Consists P found.1.bodies ∧ ∀ (id : String) (bs : List (Body W)), found.2[id]? = some bs → p.Consists P bs

def Builds (p : Prover W) (P : Literal W → Prop) (expand : Literal W → Memo W → Expansion W × Memo W) : Prop :=
  ∀ l memo, P l → p.Built P (⟨[], none⟩, memo) → p.Built P (expand l memo)

theorem expandBody_built (hex : p.Builds P expand) : ∀ (body : Body W) (sofar : Expansion W) (memo : Memo W),
    (∀ l ∈ body, P l) → p.Built P (sofar, memo) → p.Built P (expandBody expand body sofar memo)
  | [],      _,     _,    _,  h => h
  | l :: ls, sofar, memo, hP, h => by
    have hl := hex l memo (hP l List.mem_cons_self) ⟨by simp [Consists], h.2⟩
    unfold expandBody
    generalize expand l memo = found at hl ⊢
    obtain ⟨sub, memo'⟩ := found
    simp only
    split
    · exact ⟨by simp [Consists], hl.2⟩
    · refine expandBody_built hex ls _ memo' (fun x hx => hP x (List.mem_cons_of_mem l hx)) ⟨fun b hb x hx => ?_, hl.2⟩
      obtain ⟨b₁, h₁, b₂, h₂, rfl⟩ := mem_combine.1 hb
      rcases List.mem_append.1 hx with hx | hx
      · exact h.1 b₁ h₁ x hx
      · exact hl.1 b₂ h₂ x hx

theorem expandRules_built (hex : p.Builds P expand) : ∀ (rs : List (GroundRule W)) (sofar : Expansion W) (memo : Memo W),
    p.Marked rs → (∀ r ∈ rs, ∀ l ∈ r.body, P l) → p.Built P (sofar, memo) → p.Built P (expandRules expand rs sofar memo)
  | [],      _,     _,    _,  _,  h => h
  | r :: rs, sofar, memo, hk, hP, h => by
    have hrest : p.Marked rs := fun s hs => hk s (List.mem_cons_of_mem r hs)
    have hP' : ∀ s ∈ rs, ∀ l ∈ s.body, P l := fun s hs => hP s (List.mem_cons_of_mem r hs)
    have happend : ∀ {bs : List (Body W)}, p.Consists P bs → p.Consists P (sofar.bodies ++ bs) := by
      intro bs hbs b hb
      rcases List.mem_append.1 hb with hb | hb
      · exact h.1 b hb
      · exact hbs b hb
    unfold expandRules
    split
    · rename_i hleaf
      refine expandRules_built hex rs _ memo hrest hP' ⟨happend (fun b hb l hl => ?_), h.2⟩
      rw [List.mem_singleton.1 hb] at hl
      exact ⟨.inl (hk r List.mem_cons_self hleaf l hl), hP r List.mem_cons_self l hl⟩
    · have hb := expandBody_built hex r.body ⟨[[]], sofar.cut⟩ memo (hP r List.mem_cons_self) ⟨by simp [Consists], h.2⟩
      exact expandRules_built hex rs _ _ hrest hP' ⟨happend hb.1, hb.2⟩

theorem expandWithin_built (hp : p.Sound) (hP : ∀ l, P l → ∀ body, p.Rule l.id body → ∀ x ∈ body, P x) :
    ∀ (fuel : Nat) (stack : List String), p.Builds P (p.expandWithin fuel stack)
  | 0,        stack => fun _ _ _ h => h
  | fuel + 1, stack => by
    intro l memo hl h
    cases hidx : stack.idxOf? l.id with
    | some depth =>
      simp only [expandWithin, hidx]
      exact h
    | none =>
      cases hknown : memo[l.id]? with
      | some known =>
        simp only [expandWithin, hidx, hknown]
        exact ⟨h.2 _ _ hknown, h.2⟩
      | none =>
        simp only [expandWithin, hidx, hknown]
        have hleaf : p.Consists P (if p.rules[l.id]?.isNone || p.snapshot.isAsserted l then [[l]] else []) := by
          split
          · rename_i hc
            rw [Bool.or_eq_true, Option.isNone_iff_eq_none] at hc
            intro b hb x hx
            rw [List.mem_singleton.1 hb] at hx
            rw [List.mem_singleton.1 hx]
            exact ⟨hc, hl⟩
          · simp [Consists]
        have hmarked : p.Marked (p.rules[l.id]?.getD []) ∧ ∀ r ∈ p.rules[l.id]?.getD [], ∀ x ∈ r.body, P x := by
          cases hrs : p.rules[l.id]? with
          | none => exact ⟨(fun _ h => nomatch h), (fun _ h => nomatch h)⟩
          | some rs => exact ⟨hp _ rs hrs, fun r hr => hP l hl r.body ⟨rs, hrs, r, hr, rfl⟩⟩
        generalize (if p.rules[l.id]?.isNone || p.snapshot.isAsserted l then [[l]] else []) = leaf at hleaf ⊢
        have hrules := expandRules_built (expandWithin_built hp hP fuel (stack ++ [l.id])) (p.rules[l.id]?.getD [])
          ⟨leaf, none⟩ memo hmarked.1 hmarked.2 ⟨hleaf, h.2⟩
        generalize expandRules (p.expandWithin fuel (stack ++ [l.id])) (p.rules[l.id]?.getD []) ⟨leaf, none⟩ memo = found
          at hrules ⊢
        obtain ⟨e, memo'⟩ := found
        have hnorm := hrules.1.normalize p.prune
        split
        · refine ⟨hnorm, fun id bs hbs => ?_⟩
          rw [Std.HashMap.getElem?_insert] at hbs
          split at hbs
          · injection hbs with hbs
            rw [← hbs]
            exact hnorm
          · exact hrules.2 id bs hbs
        · exact ⟨hnorm, hrules.2⟩

/-- **Proofs rest on leaves**, and on what the rules lead to from the target. -/
theorem expand_built (hp : p.Sound) (hP : ∀ l, P l → ∀ body, p.Rule l.id body → ∀ x ∈ body, P x) {target : Literal W}
    (ht : P target) : p.Consists P (p.expand target) :=
  (expandWithin_built hp hP _ _ target ∅ ht ⟨by simp [Consists], by simp⟩).1

/-- Each leaf of a proof is the target or stands in a rule. -/
theorem expand_consists (hp : p.Sound) (target : Literal W) :
    p.Consists (fun l => l = target ∨ p.Occurs l) (p.expand target) :=
  expand_built hp (fun _ _ _ hr _ hx => .inr ⟨_, _, hr, hx⟩) (.inl rfl)

/-- Where every rule has a body, a derivation ends in a leaf. -/
theorem Derives.exists_leaf {S : String → Prop} {A : List String} {id : String} (h : p.Derives S A id)
    (hbody : ∀ id body, p.Rule id body → body ≠ []) : ∃ leaf, p.Leaf leaf ∧ S leaf := by
  induction h with
  | leaf _ hl hs => exact ⟨_, hl, hs⟩
  | rule _ hr _ ih =>
    obtain ⟨l, hl⟩ := List.exists_mem_of_ne_nil _ (hbody _ _ hr)
    exact ih l hl

/-- So an alternative is not empty, unless it was pruned to. -/
theorem nil_not_mem_expand (hp : p.Sound) (hprune : p.prune = false) (hbody : ∀ id body, p.Rule id body → body ≠ [])
    (target : Literal W) : [] ∉ p.expand target := by
  intro h
  have hcertain : p.prune = true → ∀ l : Literal W, l.isCertain = true → False := fun e => by
    rw [hprune] at e
    cases e
  have hd : p.Derives (fun _ => False) [] target.id :=
    (expand_spec hp hcertain target).1 ⟨[], h, fun _ hl => nomatch hl⟩
  obtain ⟨_, -, hs⟩ := hd.exists_leaf hbody
  exact hs

end Prover
end Credence
