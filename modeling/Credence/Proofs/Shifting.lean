import Credence.Proofs.Renaming
/-!
# Literals in other variables

A pool numbers variables, and nothing looks at a number for more than whether it is the same.  To shift a literal is to
add to the number of each variable and to give all wildcards one number.  Unification, substitution and resolution
commute with shifting (`Literal.unify_shift`, `Literal.subst_shift`, `Clause.resolve_shift`), and so does renaming from a
pool that is so much further on (`Clause.rename_shift`, `Literal.shuffle_shift`).  The forms that literals are looked up by
do not see it (`Literal.variant_shift`, `Clause.key_shift`); the form with the variables themselves does not see when
wildcards change alone (`Literal.id_shift`).
-/
namespace Credence

variable {n : Nat}

/-! ## Variables and terms -/

/-- The variable with `n` added to its number; wildcards all become one. -/
def Var.shift (n : Nat) (v : Var) : Var := if v.wildcard then ⟨0, true⟩ else ⟨v.id + n, false⟩

@[simp] theorem Var.shift_wildcard (n : Nat) (v : Var) : (v.shift n).wildcard = v.wildcard := by
  unfold shift
  split
  · rename_i h
    exact h.symm
  · rename_i h
    exact (Bool.eq_false_iff.2 h).symm

theorem Var.shift_named {v : Var} (h : v.wildcard = false) : v.shift n = ⟨v.id + n, false⟩ := by simp [shift, h]

theorem Var.shift_of_wildcard {v : Var} (h : v.wildcard = true) : v.shift n = ⟨0, true⟩ := by simp [shift, h]

/-- Nothing else becomes what a variable becomes that is not a wildcard. -/
theorem Var.shift_inj {v w : Var} (hv : v.wildcard = false) : v.shift n = w.shift n ↔ v = w := by
  refine ⟨fun h => ?_, fun h => h ▸ rfl⟩
  have hw : w.wildcard = false := by rw [← shift_wildcard n w, ← h, shift_wildcard, hv]
  rw [shift_named hv, shift_named hw] at h
  have hid : v.id = w.id := by simpa using h
  cases v
  cases w
  simp_all

theorem Var.named_shift {n : Nat} (v : Var) (h : v.wildcard = false) : (v.shift n).wildcard = false :=
  (v.shift_wildcard n).trans h

theorem Var.injOn_shift {n : Nat} (v w : Var) (h : v.wildcard = false) (_ : w.wildcard = false)
    (e : v.shift n = w.shift n) : v = w :=
  (Var.shift_inj h).1 e

theorem Var.shift_shift_zero (v : Var) : (v.shift n).shift 0 = v.shift n := by
  cases hv : v.wildcard with
  | true => rw [shift_of_wildcard hv, shift_of_wildcard rfl]
  | false => rw [shift_named hv, shift_named rfl, Nat.add_zero]

def Term.shift (n : Nat) : Term → Term
  | .const c => .const c
  | .var v   => .var (v.shift n)

namespace Term

@[simp] theorem isConst_shift (t : Term) : (t.shift n).isConst = t.isConst := by cases t <;> rfl

@[simp] theorem isWildcard_shift (t : Term) : (t.shift n).isWildcard = t.isWildcard := by
  cases t with
  | const c => rfl
  | var v => exact Var.shift_wildcard n v

@[simp] theorem const?_shift (t : Term) : (t.shift n).const? = t.const? := by cases t <;> rfl

theorem shift_of_semiGrounded {t : Term} (h : (t.isConst || t.isWildcard) = true) : t.shift n = t.shift 0 := by
  cases t with
  | const c => rfl
  | var v =>
    have hv : v.wildcard = true := h
    rw [shift, shift, Var.shift_of_wildcard hv, Var.shift_of_wildcard hv]

theorem text_shift (t : Term) : (t.shift 0).text = t.text := by
  cases t with
  | const c => rfl
  | var v => cases h : v.wildcard <;> simp [shift, text, Var.shift, h]

end Term

/-! ## Unification -/

def Subst.shift (n : Nat) (s : Subst) : Subst := ⟨s.bindings.map (fun b => (b.1.shift n, b.2.shift n))⟩

namespace Subst

variable {s : Subst}

@[simp] theorem size_shift (s : Subst) : (s.shift n).size = s.size := by simp [shift, size]

@[simp] theorem isEmpty_shift (s : Subst) : (s.shift n).isEmpty = s.isEmpty := by simp [shift, isEmpty]

theorem get?_shift (hs : Triangular s.bindings) (v : Var) : (s.shift n).get? (v.shift n) = (s.get? v).map (Term.shift n) := by
  refine lookup_map (f := Var.shift n) (Term.shift n) (fun b hb e => ?_)
  exact ((Var.shift_inj (bound_not_wildcard hs b hb)).1 e.symm).symm

theorem chaseFor_shift (hs : Triangular s.bindings) : ∀ (steps : Nat) (t : Term),
    (s.shift n).chaseFor steps (t.shift n) = (s.chaseFor steps t).shift n
  | 0,         t        => rfl
  | _ + 1,     .const c => rfl
  | steps + 1, .var v   => by
    rw [Term.shift, chaseFor, chaseFor, get?_shift hs]
    cases s.get? v with
    | none => rfl
    | some t => exact chaseFor_shift hs steps t

theorem chase_shift (hs : Triangular s.bindings) (t : Term) : (s.shift n).chase (t.shift n) = (s.chase t).shift n := by
  rw [chase, chase, size_shift, chaseFor_shift hs]

theorem put_shift {v : Var} (hv : v.wildcard = false) (t : Term) : ∀ bs : List (Var × Term),
    put (v.shift n) (t.shift n) (bs.map (fun b => (b.1.shift n, b.2.shift n))) =
      (put v t bs).map (fun b => (b.1.shift n, b.2.shift n))
  | []      => rfl
  | b :: bs => by
    have hb : b.1.shift n = v.shift n ↔ b.1 = v := by rw [eq_comm, Var.shift_inj hv, eq_comm]
    rw [List.map_cons, put, put]
    simp only [hb]
    split
    · rfl
    · rw [put_shift hv t bs, List.map_cons]

theorem bind_shift (s : Subst) (v : Var) (t : Term) : (s.shift n).bind (v.shift n) (t.shift n) = (s.bind v t).shift n := by
  rw [bind, bind, Var.shift_wildcard]
  split
  · rfl
  · rename_i hv
    rw [shift, shift, put_shift (Bool.eq_false_iff.2 hv)]

end Subst

namespace Term

variable {s : Subst}

theorem unify_shift (hs : Subst.Triangular s.bindings) (a b : Term) :
    Term.unify (a.shift n) (b.shift n) (s.shift n) = ((Term.unify a b s).1, (Term.unify a b s).2.shift n) := by
  rw [unify, unify, Subst.chase_shift hs, Subst.chase_shift hs]
  cases s.chase a with
  | const c =>
    cases s.chase b with
    | const d => rfl
    | var y =>
      simp only [shift, Var.shift_wildcard]
      split
      · rfl
      · rw [show Term.const c = (Term.const c).shift n from rfl, Subst.bind_shift]
        rfl
  | var x =>
    cases s.chase b with
    | const d =>
      simp only [shift, Var.shift_wildcard]
      split
      · rfl
      · rw [show Term.const d = (Term.const d).shift n from rfl, Subst.bind_shift]
        rfl
    | var y =>
      simp only [shift, Var.shift_wildcard]
      cases hx : x.wildcard with
      | true => rfl
      | false =>
        have hxy : x.shift n = y.shift n ↔ x = y := Var.shift_inj hx
        simp only [Bool.false_or, hxy]
        split
        · rfl
        · rw [show Term.var (y.shift n) = (Term.var y).shift n from rfl, Subst.bind_shift]

theorem unifyAll_shift : ∀ (as bs : List Term) {s : Subst}, Subst.Triangular s.bindings →
    Term.unifyAll (as.map (shift n)) (bs.map (shift n)) (s.shift n) =
      ((Term.unifyAll as bs s).1, (Term.unifyAll as bs s).2.shift n)
  | [],      _,       _, _  => by simp only [unifyAll, List.map_nil]
  | _ :: _,  [],      _, _  => by simp only [unifyAll, List.map_cons, List.map_nil]
  | a :: as, b :: bs, s, hs => by
    have ht := (Term.unify_spec hs a b).triangular
    rw [List.map_cons, List.map_cons, unifyAll, unifyAll, unify_shift hs]
    generalize Term.unify a b s = out at ht
    obtain ⟨ok, s⟩ := out
    cases ok with
    | false => rfl
    | true => exact unifyAll_shift as bs ht

end Term

/-! ## Literals -/

namespace Literal

variable {W : Type}

def shift (n : Nat) (l : Literal W) : Literal W := { l with terms := l.terms.map (Term.shift n) }

@[simp] theorem predicate_shift (l : Literal W) : (l.shift n).predicate = l.predicate := by rw [shift]

@[simp] theorem name_shift (l : Literal W) : (l.shift n).name = l.name := rfl

@[simp] theorem isNegated_shift (l : Literal W) : (l.shift n).isNegated = l.isNegated := by
  rw [isNegated, isNegated, predicate_shift]

@[simp] theorem isPrimitive_shift (l : Literal W) : (l.shift n).isPrimitive = l.isPrimitive := by
  rw [isPrimitive, isPrimitive, predicate_shift]

@[simp] theorem primitive?_shift (l : Literal W) : (l.shift n).primitive? = l.primitive? := rfl

@[simp] theorem isSemiGrounded_shift (l : Literal W) : (l.shift n).isSemiGrounded = l.isSemiGrounded := by
  simp [isSemiGrounded, shift, List.all_map, Function.comp_def]

variable {l m : Literal W}

theorem shift_of_semiGrounded (h : l.isSemiGrounded = true) (n : Nat) : l.shift n = l.shift 0 := by
  rw [shift, shift, List.map_congr_left (fun t ht => Term.shift_of_semiGrounded (List.all_eq_true.1 h t ht))]

theorem isRelevant_shift (k : Nat) (l m : Literal W) : (l.shift n).isRelevant (m.shift k) = l.isRelevant m := by
  simp only [isRelevant, shift, List.zip_map, List.all_map, Function.comp_def]
  congr 2
  funext p
  obtain ⟨t, u⟩ := p
  cases t <;> cases u <;> rfl

theorem unify_shift (l m : Literal W) : (l.shift n).unify (m.shift n) = (l.unify m).map (Subst.shift n) := by
  have hall := Term.unifyAll_shift (n := n) l.terms m.terms (s := .empty) trivial
  rw [unify, unify, unifyInto, unifyInto]
  by_cases hp : l.predicate = m.predicate
  · rw [if_pos hp, if_pos (show (l.shift n).predicate = (m.shift n).predicate from hp)]
    rw [show Subst.empty.shift n = Subst.empty from rfl] at hall
    simp only [shift, hall]
    generalize Term.unifyAll l.terms m.terms .empty = out
    obtain ⟨ok, s⟩ := out
    cases ok <;> rfl
  · rw [if_neg hp, if_neg (show (l.shift n).predicate ≠ (m.shift n).predicate from hp)]
    rfl

theorem subst_shift {s : Subst} (hs : Subst.Triangular s.bindings) (l : Literal W) :
    (l.shift n).subst (s.shift n) = (l.subst s).shift n := by
  rw [subst, subst, Subst.isEmpty_shift]
  split
  · rfl
  · simp only [shift, List.map_map]
    congr 1
    exact List.map_congr_left (fun t _ => Subst.chase_shift hs t)

/-- A shifted literal is a copy. -/
theorem copy_shift (n : Nat) (l : Literal W) : Copy (Var.shift n) l (l.shift n) := by
  refine ⟨rfl, rfl, List.forall₂_map_right_iff.2 (List.forall₂_same.2 (fun t _ => ?_))⟩
  cases t with
  | const c => rfl
  | var v =>
    cases hw : v.wildcard with
    | true => exact Renaming.relabeled_wildcard hw ((Var.shift_wildcard n v).trans hw)
    | false =>
      simp only [Relabeled, hw, Bool.false_eq_true, if_false]
      rfl

/-- **A goal has the same variant in other variables.** -/
@[simp] theorem variant_shift (l : Literal W) : (l.shift n).variant = l.variant :=
  Copy.variant Var.named_shift Var.injOn_shift (l.copy_shift n) (fun _ hv => hv.1)

end Literal

/-! ## Clauses -/

namespace Clause

variable {W : Type}

def shift (n : Nat) (c : Clause W) : Clause W := ⟨c.head.shift n, c.body.map (Literal.shift n)⟩

@[simp] theorem head_shift (c : Clause W) : (c.shift n).head = c.head.shift n := rfl

@[simp] theorem body_shift (c : Clause W) : (c.shift n).body = c.body.map (Literal.shift n) := rfl

theorem subst_shift {s : Subst} (hs : Subst.Triangular s.bindings) (c : Clause W) :
    (c.shift n).subst (s.shift n) = (c.subst s).shift n := by
  simp only [subst, shift, List.map_map, Literal.subst_shift hs]
  congr 1
  exact List.map_congr_left (fun l _ => Literal.subst_shift hs l)

/-- **A step of resolution is the same step in other variables.** -/
theorem resolve_shift (c : Clause W) (fact : Literal W) :
    (c.shift n).resolve (fact.shift n) = (c.resolve fact).map (Clause.shift n) := by
  obtain ⟨head, body⟩ := c
  cases body with
  | nil => rfl
  | cons first rest =>
    simp only [resolve, shift, List.map_cons, Literal.unify_shift]
    cases hs : first.unify fact with
    | none => rfl
    | some s =>
      have ht := (Literal.unify_eq_some hs).2.1
      simp only [Option.map_some, List.map_map, Literal.subst_shift ht, shift]
      congr 2
      exact List.map_congr_left (fun l _ => Literal.subst_shift ht l)

theorem copy_shift (n : Nat) (c : Clause W) : Copy (Var.shift n) c (c.shift n) :=
  ⟨c.head.copy_shift n, List.forall₂_map_right_iff.2 (List.forall₂_same.2 (fun l _ => l.copy_shift n))⟩

theorem VarsIn.named {c : Clause W} {v : Var} (h : c.VarsIn v) : v.wildcard = false := by
  rcases h with h | ⟨l, -, h⟩
  · exact h.1
  · exact h.1

variable [Weight W]

@[simp] theorem fingerprint_shift (c : Clause W) : (c.shift n).fingerprint = c.fingerprint :=
  (c.copy_shift n).fingerprint Var.named_shift Var.injOn_shift (fun _ hv => hv.named)

/-- **So is a clause known by the same key.** -/
@[simp] theorem key_shift (c : Clause W) : (c.shift n).key = c.key :=
  (c.copy_shift n).key Var.named_shift Var.injOn_shift (fun _ hv => hv.named)

end Clause

/-! ## Wildcards alone -/

section Wildcards

variable {W : Type} [Weight W]

theorem Literal.id_shift (l : Literal W) : (l.shift 0).id = l.id := by
  have hterm : ∀ t : Term, idTerm (t.shift 0) = idTerm t := fun t => by
    cases t with
    | const c => rfl
    | var v => cases h : v.wildcard <;> simp [Term.shift, idTerm, Var.shift, h]
  simp only [id, shift, List.map_map, Function.comp_def, hterm]
  rfl

theorem Literal.text_shift (l : Literal W) : (l.shift 0).text = l.text := by
  simp only [text, shift, List.map_map, Function.comp_def, Term.text_shift]
  rfl

theorem Clause.text_shift (c : Clause W) : (c.shift 0).text = c.text := by
  simp only [text, shift, List.isEmpty_map, List.map_map, Function.comp_def, Literal.text_shift]

end Wildcards

/-! ## Renaming -/

/-- The pool that is `n` further on. -/
def VarPool.shift (n : Nat) (p : VarPool) : VarPool := ⟨p.issued + n⟩

namespace Renaming

def shift (n : Nat) (r : Renaming) : Renaming := ⟨r.pool.shift n, r.table.map (fun b => (b.1.shift 0, b.2.shift n))⟩

theorem rename_shift {v : Var} (hv : v.wildcard = false) (r : Renaming) :
    (r.shift n).rename (v.shift 0) = ((r.rename v).1.shift n, (r.rename v).2.shift n) := by
  have hlookup : (r.shift n).table.lookup (v.shift 0) = (r.table.lookup v).map (Var.shift n) :=
    lookup_map (f := Var.shift 0) _ (fun b _ e => (Var.shift_inj hv).1 e)
  rw [rename, rename, hlookup]
  cases r.table.lookup v with
  | some w => rfl
  | none =>
    have hfresh : (r.shift n).pool.fresh = (r.pool.fresh.1.shift n, r.pool.fresh.2.shift n) := by
      simp only [shift, VarPool.shift, VarPool.fresh, Var.shift, Bool.false_eq_true, if_false]
      rw [Nat.add_right_comm]
    simp only [Option.map_none, hfresh]
    rfl

theorem term_shift (r : Renaming) (t : Term) :
    (r.shift n).term (t.shift 0) = ((r.term t).1.shift n, (r.term t).2.shift n) := by
  cases t with
  | const c => rfl
  | var v =>
    simp only [Term.shift, term, Var.shift_wildcard]
    split
    · rename_i hv
      simp only [Var.shift_of_wildcard hv]
    · rename_i hv
      rw [rename_shift (Bool.eq_false_iff.2 hv)]

theorem terms_shift : ∀ (r : Renaming) (ts : List Term),
    (r.shift n).terms (ts.map (Term.shift 0)) = ((r.terms ts).1.map (Term.shift n), (r.terms ts).2.shift n)
  | _, []      => rfl
  | r, t :: ts => by
    rw [List.map_cons, terms, terms, term_shift]
    simp only [terms_shift (r.term t).2 ts]
    rfl

/-- Wildcards get numbers of their own from a pool, which only shifting takes away again. -/
theorem shuffled_shift : ∀ (r : Renaming) (ts : List Term),
    ((r.shift n).shuffled (ts.map (Term.shift 0))).1.map (Term.shift 0) = (r.shuffled ts).1.map (Term.shift n) ∧
      ((r.shift n).shuffled (ts.map (Term.shift 0))).2 = (r.shuffled ts).2.shift n
  | _, []             => ⟨rfl, rfl⟩
  | r, .const c :: ts => by
    obtain ⟨h1, h2⟩ := shuffled_shift r ts
    exact ⟨congrArg _ h1, h2⟩
  | r, .var v :: ts   => by
    simp only [List.map_cons, Term.shift, shuffled, Var.shift_wildcard]
    split
    · have hpool : (r.shift n).pool.wildcard.2 = r.pool.wildcard.2.shift n := by
        simp only [shift, VarPool.shift, VarPool.wildcard]
        rw [Nat.add_right_comm]
      obtain ⟨h1, h2⟩ := shuffled_shift { r with pool := r.pool.wildcard.2 } ts
      simp only [shift] at h1 h2 hpool
      simp only [shift, hpool, List.map_cons, h1, h2, Term.shift]
      exact ⟨rfl, trivial⟩
    · rename_i hv
      obtain ⟨h1, h2⟩ := shuffled_shift (r.rename v).2 ts
      rw [rename_shift (Bool.eq_false_iff.2 hv)]
      refine ⟨?_, h2⟩
      rw [List.map_cons, List.map_cons, h1]
      simp only [Term.shift, Var.shift_shift_zero]

end Renaming

theorem Literal.renameWith_shift {W : Type} (l : Literal W) (r : Renaming) :
    (l.shift 0).renameWith (r.shift n) = ((l.renameWith r).1.shift n, (l.renameWith r).2.shift n) := by
  simp only [renameWith, shift, Renaming.terms_shift]

namespace Clause

variable {W : Type}

theorem renameLiterals_shift : ∀ (r : Renaming) (ls : List (Literal W)),
    renameLiterals (r.shift n) (ls.map (Literal.shift 0)) =
      ((renameLiterals r ls).1.map (Literal.shift n), (renameLiterals r ls).2.shift n)
  | _, []      => rfl
  | r, l :: ls => by
    rw [List.map_cons, renameLiterals, renameLiterals, l.renameWith_shift]
    simp only [renameLiterals_shift (l.renameWith r).2 ls]
    rfl

/-- **From a pool further on a clause is renamed to variables further on.** -/
theorem rename_shift (c : Clause W) (pool : VarPool) :
    (c.shift 0).rename (pool.shift n) = ((c.rename pool).1.shift n, (c.rename pool).2.shift n) := by
  have hstart : (⟨pool.shift n, []⟩ : Renaming) = Renaming.shift n ⟨pool, []⟩ := rfl
  rw [rename, rename, hstart, head_shift, c.head.renameWith_shift, body_shift]
  simp only [renameLiterals_shift (c.head.renameWith ⟨pool, []⟩).2 c.body]
  rfl

end Clause

/-- So is a query, whose wildcards are numbered as well. -/
theorem Literal.shuffle_shift {W : Type} (l : Literal W) (pool : VarPool) :
    ((l.shift 0).shuffle (pool.shift n)).1.shift 0 = (l.shuffle pool).1.shift n ∧
      ((l.shift 0).shuffle (pool.shift n)).2 = (l.shuffle pool).2.shift n := by
  obtain ⟨h1, h2⟩ := Renaming.shuffled_shift (n := n) ⟨pool, []⟩ l.terms
  exact ⟨congrArg (Literal.mk l.weight l.predicate) h1, congrArg Renaming.pool h2⟩

end Credence
