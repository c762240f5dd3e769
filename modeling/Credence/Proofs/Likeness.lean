import Credence.Hashing
import Credence.Proofs.Legible
import Credence.Proofs.Numbering
/-!
# Which literals are alike

Goals are looked up by the variants of their literals, and sets of literals by equality and hash.  All three go by one
numbering, in which every wildcard is a variable of its own, so they agree: literals have the same variant exactly when
one is a renaming of the other, they are equal when their weights have the same bits besides, and equal literals hash
equally (`Literal.variant_eq_iff_renames`).
-/
namespace Credence

/-! ## Places -/

/-- A variable of a literal: one that has a name, or the wildcard at a place. -/
inductive Letter
  | named (v : Var)
  | blank (place : Nat)
deriving DecidableEq

/-- What stands at the places of a literal from the `i`-th on: constants and variables. -/
def placesFrom : Nat → List Term → List (Constant ⊕ Letter)
  | _, []             => []
  | i, .const c :: ts => .inl c :: placesFrom (i + 1) ts
  | i, .var v :: ts   => .inr (if v.wildcard then .blank i else .named v) :: placesFrom (i + 1) ts

/-- What a numbering has seen: the variables in `known`, by their places in it, and no wildcard from place `i` on. -/
structure Tallied (known : List Letter) (i : Nat) (seen : List (Var × Nat)) (next : Nat) : Prop where
  next  : next = known.length
  seen  : ∀ v n, seen.lookup v = some n ↔ .named v ∈ known ∧ known.idxOf (.named v) = n
  fresh : ∀ j, i ≤ j → .blank j ∉ known

namespace Tallied

variable {known : List Letter} {i next : Nat} {seen : List (Var × Nat)}

theorem start : Tallied [] 0 [] 0 := ⟨rfl, fun v n => by simp, fun _ _ => List.not_mem_nil⟩

theorem skip (h : Tallied known i seen next) : Tallied known (i + 1) seen next :=
  ⟨h.next, h.seen, fun j hj => h.fresh j (by omega)⟩

theorem wildcard (h : Tallied known i seen next) : Tallied (known ++ [.blank i]) (i + 1) seen (next + 1) := by
  refine ⟨by simp [h.next], fun v n => ?_, fun j hj hmem => ?_⟩
  · rw [h.seen, List.mem_append, List.mem_singleton]
    constructor
    · rintro ⟨hv, rfl⟩
      exact ⟨.inl hv, List.idxOf_append_of_mem hv⟩
    · rintro ⟨hv, rfl⟩
      have hv : .named v ∈ known := hv.resolve_right (fun e => nomatch e)
      exact ⟨hv, (List.idxOf_append_of_mem hv).symm⟩
  · rw [List.mem_append, List.mem_singleton] at hmem
    rcases hmem with hmem | e
    · exact h.fresh j (by omega) hmem
    · have := Letter.blank.inj e
      omega

theorem named (h : Tallied known i seen next) {v : Var} (hv : seen.lookup v = none) :
    Tallied (known ++ [.named v]) (i + 1) ((v, next) :: seen) (next + 1) := by
  have hnew : .named v ∉ known := fun hmem => by
    have := (h.seen v _).2 ⟨hmem, rfl⟩
    rw [hv] at this
    cases this
  refine ⟨by simp [h.next], fun w n => ?_, fun j hj hmem => ?_⟩
  · rw [List.lookup_cons, List.mem_append, List.mem_singleton]
    by_cases hw : w = v
    · subst hw
      rw [beq_self_eq_true, List.idxOf_append_of_notMem hnew]
      simp [h.next, eq_comm]
    · rw [beq_eq_false_iff_ne.2 hw]
      dsimp only
      rw [h.seen]
      constructor
      · rintro ⟨hmem, rfl⟩
        exact ⟨.inl hmem, List.idxOf_append_of_mem hmem⟩
      · rintro ⟨hmem, rfl⟩
        have hmem : .named w ∈ known := hmem.resolve_right (fun e => hw (Letter.named.inj e))
        exact ⟨hmem, (List.idxOf_append_of_mem hmem).symm⟩
  · rw [List.mem_append, List.mem_singleton] at hmem
    exact hmem.elim (h.fresh j (by omega)) (fun e => nomatch e)

end Tallied

namespace Literal

variable {W : Type}

def places (l : Literal W) : List (Constant ⊕ Letter) := placesFrom 0 l.terms

/-- A place that was not met gets the next number, and keeps it. -/
theorem idxOf_firsts_new {known : List Letter} {x : Letter} (hx : x ∉ known)
    (xs : List (Constant ⊕ Letter)) : (firsts (known ++ [x]) xs).idxOf x = known.length := by
  rw [idxOf_firsts (by simp), List.idxOf_append_of_notMem hx]
  simp

theorem shapes_eq : ∀ {ts : List Term} {known : List Letter} {i next : Nat} {seen : List (Var × Nat)},
    Tallied known i seen next →
      shapes seen next ts = renamed (firsts known (placesFrom i ts)).idxOf (placesFrom i ts)
  | [], _, _, _, _, _ => by simp [shapes, placesFrom, renamed]
  | .const c :: ts, known, i, next, seen, h => by
    rw [shapes_const, shapes_eq h.skip]
    rfl
  | .var v :: ts, known, i, next, seen, h => by
    rw [placesFrom]
    by_cases hw : v.wildcard = true
    · rw [if_pos hw, renamed_cons, firsts]
      have hnew : .blank i ∉ known := h.fresh i (Nat.le_refl i)
      rw [if_neg hnew, shapes_wildcard seen next hw, shapes_eq h.wildcard, Sum.map_inr,
        idxOf_firsts_new hnew, h.next]
    · have hw : v.wildcard = false := by simpa using hw
      rw [if_neg (by simp [hw]), renamed_cons, firsts]
      cases hl : seen.lookup v with
      | some n =>
        obtain ⟨hmem, hn⟩ := (h.seen v n).1 hl
        rw [if_pos hmem, shapes_seen next hw hl, shapes_eq h.skip, Sum.map_inr, idxOf_firsts hmem, hn]
      | none =>
        have hnew : .named v ∉ known := fun hmem => by
          rw [(h.seen v _).2 ⟨hmem, rfl⟩] at hl
          cases hl
        rw [if_neg hnew, shapes_new next hw hl, shapes_eq (h.named hl), Sum.map_inr, idxOf_firsts_new hnew, h.next]

/-- The shape is the literal with its places numbered by first occurrence. -/
theorem shape_eq_numbered (l : Literal W) : l.shape = numbered l.places := shapes_eq Tallied.start

/-! ## Renamings -/

/-- **One literal is the other renamed**, one variable for one, where every wildcard is a variable of its own. -/
def Renames (l m : Literal W) : Prop :=
  l.predicate = m.predicate ∧ ∃ f, Set.BijOn f (lettersOf l.places) (lettersOf m.places) ∧ m.places = renamed f l.places

theorem renames_iff_shape {l m : Literal W} : l.Renames m ↔ l.predicate = m.predicate ∧ l.shape = m.shape := by
  have : Nonempty Letter := ⟨.blank 0⟩
  rw [Renames, shape_eq_numbered, shape_eq_numbered, numbered_eq_iff]

theorem renames_fitted_iff {l m : Literal W} (hl : l.IsWorded) (hm : m.IsWorded) :
    l.fitted.Renames m.fitted ↔ l.variant = m.variant := by
  rw [renames_iff_shape]
  constructor
  · rintro ⟨hp, hs⟩
    show l.fitted.variant = m.fitted.variant
    rw [variant_eq, variant_eq, hs, name, name, hp]
  · exact fun h => shape_eq_of_variant_eq (l := l.fitted) (m := m.fitted) hl.isPlain_fitted hm.isPlain_fitted h

/-! ## Equality -/

/-- Numbers stand where the variables are. -/
theorem numberTerms_fit : ∀ (seen : List (Var × Nat)) (next : Nat) (ts : List Term),
    List.Forall₂ (fun t n => n.isSome = !t.isConst) ts (numberTerms seen next ts)
  | _,    _,    []             => .nil
  | seen, next, .const _ :: ts => .cons rfl (numberTerms_fit seen next ts)
  | seen, next, .var v :: ts   => by
    rw [numberTerms]
    split
    · exact .cons rfl (numberTerms_fit seen (next + 1) ts)
    · split
      · exact .cons rfl (numberTerms_fit seen next ts)
      · exact .cons rfl (numberTerms_fit _ (next + 1) ts)

theorem shapeTerm_eq_iff {t u : Term} {m n : Option Nat} (ht : m.isSome = !t.isConst) (hu : n.isSome = !u.isConst) :
    shapeTerm t m = shapeTerm u n ↔ m = n ∧ sameShape t u = true := by
  cases t <;> cases u <;> cases m <;> cases n <;> simp_all [shapeTerm, sameShape, Term.isConst]

/-- **The shape is the numbers together with the constants.** -/
theorem zipWith_shapeTerm_eq_iff {ts us : List Term} {ms ns : List (Option Nat)}
    (ht : List.Forall₂ (fun t n => n.isSome = !t.isConst) ts ms) (hu : List.Forall₂ (fun t n => n.isSome = !t.isConst) us ns) :
    List.zipWith shapeTerm ts ms = List.zipWith shapeTerm us ns ↔
      ms = ns ∧ (ts.zip us).all (fun p => sameShape p.1 p.2) = true := by
  induction ht generalizing us ns with
  | nil => cases hu <;> simp
  | cons ht _ ih =>
    cases hu with
    | nil => simp
    | cons hu hus =>
      simp only [List.zipWith_cons_cons, List.cons.injEq, List.zip_cons_cons, List.all_cons, Bool.and_eq_true, ih hus,
        shapeTerm_eq_iff ht hu]
      tauto

theorem shape_eq_iff {l m : Literal W} :
    l.shape = m.shape ↔ l.numbers = m.numbers ∧ (l.terms.zip m.terms).all (fun p => sameShape p.1 p.2) = true :=
  zipWith_shapeTerm_eq_iff (numberTerms_fit [] 0 l.terms) (numberTerms_fit [] 0 m.terms)

/-- Literals are equal when weight, predicate and shape are. -/
theorem alike_iff_shape [Weight W] {l m : Literal W} :
    l.alike m = true ↔ Weight.same l.weight m.weight = true ∧ l.predicate = m.predicate ∧ l.shape = m.shape := by
  rw [alike, shape_eq_iff]
  simp only [Bool.and_eq_true, decide_eq_true_eq, and_assoc]

variable {l m : Literal Double}

theorem alike_iff : l.alike m = true ↔ l.weight = m.weight ∧ l.predicate = m.predicate ∧ l.shape = m.shape := by
  rw [alike_iff_shape]
  exact and_congr_left (fun _ => decide_eq_true_iff)

theorem alike_equivalence : Equivalence (fun l m : Literal Double => l.alike m = true) where
  refl  := fun _ => alike_iff.2 ⟨rfl, rfl, rfl⟩
  symm  := fun h =>
    have ⟨hw, hp, hs⟩ := alike_iff.1 h
    alike_iff.2 ⟨hw.symm, hp.symm, hs.symm⟩
  trans := fun h h' =>
    have ⟨hw, hp, hs⟩ := alike_iff.1 h
    have ⟨hw', hp', hs'⟩ := alike_iff.1 h'
    alike_iff.2 ⟨hw.trans hw', hp.trans hp', hs.trans hs'⟩

/-- Terms of the same shape go into a hasher alike. -/
theorem map_termPiece_of_zip : ∀ {ts us : List Term}, ts.length = us.length →
    (ts.zip us).all (fun p => sameShape p.1 p.2) = true → ts.map termPiece = us.map termPiece
  | [], [], _, _ => rfl
  | t :: ts, u :: us, hlen, h => by
    rw [List.zip_cons_cons, List.all_cons, Bool.and_eq_true] at h
    have htu : termPiece t = termPiece u := by
      cases t <;> cases u <;> simp_all [termPiece, sameShape]
    rw [List.map_cons, List.map_cons, htu, map_termPiece_of_zip (Nat.succ.inj hlen) h.2]

/-- **Equal literals go into a hasher alike.** -/
theorem pieces_eq_of_alike (h : l.alike m = true) : l.pieces = m.pieces := by
  obtain ⟨hw, hp, hs⟩ := alike_iff.1 h
  obtain ⟨hnumbers, hzip⟩ := shape_eq_iff.1 hs
  have hlen : l.terms.length = m.terms.length := by rw [← shape_length, hs, shape_length]
  rw [pieces, pieces, hw, name, name, hp, hnumbers, map_termPiece_of_zip hlen hzip]

/-! ## Copies -/

/-- A copy has the shape of the original. -/
theorem Copy.shape_eq {f : Var → Var} {l l' : Literal W} (h : Copy f l l')
    (hnamed : ∀ v, VarsOf l.terms v → (f v).wildcard = false)
    (hinj : ∀ u v, VarsOf l.terms u → VarsOf l.terms v → f u = f v → u = v) : l'.shape = l.shape := by
  have hnumbers : l'.numbers = l.numbers :=
    numberTerms_relabeled hnamed hinj h.terms (fun _ hv => hv) [] 0 (fun _ hb => nomatch hb)
  have hterms : ∀ {ts us : List Term}, List.Forall₂ (Relabeled f) ts us →
      (us.zip ts).all (fun p => sameShape p.1 p.2) = true := by
    intro ts us h
    induction h with
    | nil => rfl
    | @cons t u ts us htu _ ih =>
      rw [List.zip_cons_cons, List.all_cons, ih, Bool.and_true]
      cases t with
      | const c =>
        rw [show u = .const c from htu]
        exact decide_eq_true rfl
      | var v =>
        cases hw : v.wildcard <;> simp only [Relabeled, hw, if_true, Bool.false_eq_true, if_false] at htu
        · rw [htu]
          rfl
        · obtain ⟨w, -, rfl⟩ := htu
          rfl
  exact shape_eq_iff.2 ⟨hnumbers, hterms h.terms⟩

/-- **A renamed literal is a copy in fresh variables.** -/
theorem rename_spec (l : Literal W) (pool : VarPool) :
    ∃ f, Relabeling (VarsOf l.terms) f pool.issued (l.rename pool).2.issued ∧ Copy f l (l.rename pool).1 := by
  have h := Renaming.terms_copied l.terms (Renaming.fresh_start pool)
  exact ⟨_, h.fresh.relabeling h.decided, ⟨rfl, rfl, h.copy _ (.refl _)⟩⟩

theorem alike_of_copy {f : Var → Var} {low high : Nat} {l l' : Literal Double}
    (hf : Relabeling (VarsOf l.terms) f low high) (h : Copy f l l') : l'.alike l = true :=
  alike_iff.2 ⟨h.weight, h.predicate, h.shape_eq hf.named hf.injective⟩

theorem alike_rename (l : Literal Double) (pool : VarPool) : (l.rename pool).1.alike l = true := by
  obtain ⟨f, hf, h⟩ := l.rename_spec pool
  exact alike_of_copy hf h

theorem alike_shuffle (l : Literal Double) (pool : VarPool) : (l.shuffle pool).1.alike l = true := by
  obtain ⟨f, hf, h⟩ := l.shuffle_spec pool
  exact alike_of_copy hf h

/-! ## The forms agree -/

/-- **What goals are keyed by and what literals are compared by agree.**  For literals in the words of the language, a
shared variant says that one is the other renamed, and equality says that their weights have the same bits besides.
Equality is an equivalence, equal literals hash equally whatever the hasher, and copies are equal to their originals. -/
theorem variant_eq_iff_renames (hl : l.IsWorded) (hm : m.IsWorded) :
    (l.variant = m.variant ↔ l.fitted.Renames m.fitted) ∧
      (l.isWellFormed = true → m.isWellFormed = true →
        (l.variant = m.variant ↔ l.Renames m) ∧
        (l.alike m = true ↔ l.Renames m ∧ l.weight.bits = m.weight.bits)) ∧
      (l.alike m = true ↔ l.predicate = m.predicate ∧ l.variant = m.variant ∧ l.weight.bits = m.weight.bits) ∧
      Equivalence (fun a b : Literal Double => a.alike b = true) ∧
      (∀ (a b : Literal Double) (S : Type) (feed : S → Piece → S) (s : S), a.alike b = true →
        a.hashWith feed s = b.hashWith feed s) ∧
      ∀ (a b : Literal Double) (p q : VarPool), (a.rename p).1.alike a = true ∧ (a.shuffle p).1.alike a = true ∧
        (a.alike b = true → (a.rename p).1.alike (b.rename q).1 = true ∧ (a.shuffle p).1.alike (b.shuffle q).1 = true) := by
  have hbits : l.weight.bits = m.weight.bits ↔ l.weight = m.weight := by
    cases l.weight
    cases m.weight
    exact ⟨congrArg Double.mk, congrArg Double.bits⟩
  have hvariant := renames_fitted_iff hl hm
  have halike : l.alike m = true ↔ l.predicate = m.predicate ∧ l.variant = m.variant ∧ l.weight.bits = m.weight.bits := by
    rw [alike_iff, hbits, ← hvariant, renames_iff_shape]
    constructor
    · rintro ⟨hw, hp, hs⟩
      have hlen : l.terms.length = m.terms.length := by rw [← shape_length, hs, shape_length]
      exact ⟨hp, ⟨by simp only [fitted, name, hp, hlen], hs⟩, hw⟩
    · rintro ⟨hp, ⟨-, hs⟩, hw⟩
      exact ⟨hw, hp, hs⟩
  refine ⟨hvariant.symm, fun hlw hmw => ?_, halike, alike_equivalence, fun a b S feed s h => ?_, fun a b p q => ?_⟩
  · rw [fitted_of_isWellFormed hlw, fitted_of_isWellFormed hmw] at hvariant
    refine ⟨hvariant.symm, ?_⟩
    rw [alike_iff, hbits, renames_iff_shape, and_comm]
  · rw [hashWith, hashWith, pieces_eq_of_alike h]
  · refine ⟨alike_rename a p, alike_shuffle a p, fun h => ⟨?_, ?_⟩⟩
    · exact alike_equivalence.trans (alike_equivalence.trans (alike_rename a p) h) (alike_equivalence.symm (alike_rename b q))
    · exact alike_equivalence.trans (alike_equivalence.trans (alike_shuffle a p) h) (alike_equivalence.symm (alike_shuffle b q))

/-- A wildcard is as good as a variable that occurs once: `p(X, _, X)` is `p(Y, Z, Y)` renamed, and equal to it. -/
theorem variant_eq_iff_renames_wildcard :
    (⟨⟨0x3fe0000000000000⟩, ⟨"p", 3⟩, [.var ⟨0, false⟩, .var ⟨1, true⟩, .var ⟨0, false⟩]⟩ : Literal Double).alike
      ⟨⟨0x3fe0000000000000⟩, ⟨"p", 3⟩, [.var ⟨5, false⟩, .var ⟨4, false⟩, .var ⟨5, false⟩]⟩ = true := by
  have hworded : ∀ ts : List Term, (∀ t ∈ ts, t.isPlain = true) →
      (⟨⟨0x3fe0000000000000⟩, ⟨"p", 3⟩, ts⟩ : Literal Double).IsWorded :=
    fun ts hts => ⟨(by decide : Predicate.isPlain ⟨"p", 3⟩ = true), hts⟩
  have h := variant_eq_iff_renames (hworded [.var ⟨0, false⟩, .var ⟨1, true⟩, .var ⟨0, false⟩] (by decide))
    (hworded [.var ⟨5, false⟩, .var ⟨4, false⟩, .var ⟨5, false⟩] (by decide))
  exact h.2.2.1.2 ⟨rfl, by decide, rfl⟩

end Literal
end Credence
