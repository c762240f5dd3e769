import Credence.Proofs.Instance
import Mathlib.Data.List.Nodup
/-!
# Copies with variables of their own

A renaming gives each variable it meets a number that no variable had before, and the same one each time.  So a copy
says under a valuation what the original says under another one (`Relabeling.values_eq`), and whatever the original says
under a valuation the copy says under one that agrees with any given valuation on the variables that were there before
(`Relabeling.values_transport`).  The forms that literals and clauses are looked up by are those of the original
(`Literal.Copy.variant`, `Clause.Copy.key`).
-/
namespace Credence

/-- The same term with its variable renamed by `f`; a wildcard stays a wildcard. -/
def Relabeled (f : Var → Var) : Term → Term → Prop
  | .const c, u => u = .const c
  | .var v,   u => if v.wildcard then ∃ w : Var, w.wildcard = true ∧ u = .var w else u = .var (f v)

/-- **A renaming into fresh variables**: the variables in `S` get variables of their own, with numbers from `low` up to
`high`. -/
structure Relabeling (S : Var → Prop) (f : Var → Var) (low high : Nat) : Prop where
  le        : low ≤ high
  named     : ∀ v, S v → (f v).wildcard = false
  low_le    : ∀ v, S v → low ≤ (f v).id
  lt_high   : ∀ v, S v → (f v).id < high
  injective : ∀ u v, S u → S v → f u = f v → u = v

/-- The variables of some terms, wildcards apart. -/
def VarsOf (ts : List Term) (v : Var) : Prop := v.wildcard = false ∧ Term.var v ∈ ts

theorem Relabeled.value? {f : Var → Var} {t u : Term} (h : Relabeled f t u)
    (hf : ∀ v, v.wildcard = false → t = .var v → (f v).wildcard = false) (ν : Valuation) :
    u.value? ν = t.value? (fun v => ν (f v)) := by
  cases t with
  | const c => rw [show u = .const c from h]; rfl
  | var v =>
    cases hw : v.wildcard with
    | true =>
      simp only [Relabeled, hw, if_true] at h
      obtain ⟨w, hw', rfl⟩ := h
      rw [Term.value?_wildcard hw', Term.value?_wildcard hw]
    | false =>
      simp only [Relabeled, hw, Bool.false_eq_true, if_false] at h
      subst h
      rw [Term.value?_var (hf v hw rfl), Term.value?_var hw]

namespace Relabeling

variable {S : Var → Prop} {f : Var → Var} {low high : Nat}

theorem values_eq (h : Relabeling S f low high) {ts us : List Term} (hr : List.Forall₂ (Relabeled f) ts us)
    (hS : ∀ v, VarsOf ts v → S v) (ν : Valuation) :
    us.map (Term.value? ν) = ts.map (Term.value? (fun v => ν (f v))) := by
  induction hr with
  | nil => rfl
  | @cons t u ts us htu _ ih =>
    rw [List.map_cons, List.map_cons, ih (fun v hv => hS v ⟨hv.1, List.mem_cons_of_mem _ hv.2⟩),
      htu.value? (fun v hw ht => h.named v (hS v ⟨hw, by rw [ht]; exact List.mem_cons_self⟩)) ν]

/-- The valuation of the copy that says what the original says under `μ`, and agrees with `κ` elsewhere. -/
noncomputable def transport (S : Var → Prop) (f : Var → Var) (μ κ : Valuation) : Valuation := fun w =>
  open Classical in if h : ∃ v, S v ∧ f v = w then μ h.choose else κ w

theorem transport_apply (h : Relabeling S f low high) (μ κ : Valuation) {v : Var} (hv : S v) :
    transport S f μ κ (f v) = μ v := by
  have hex : ∃ u, S u ∧ f u = f v := ⟨v, hv, rfl⟩
  rw [transport, dif_pos hex, h.injective _ v hex.choose_spec.1 hv hex.choose_spec.2]

theorem transport_old (h : Relabeling S f low high) (μ κ : Valuation) {w : Var} (hw : w.id < low) :
    transport S f μ κ w = κ w := by
  rw [transport, dif_neg]
  rintro ⟨v, hv, rfl⟩
  have := h.low_le v hv
  omega

theorem values_transport (h : Relabeling S f low high) {ts us : List Term} (hr : List.Forall₂ (Relabeled f) ts us)
    (hS : ∀ v, VarsOf ts v → S v) (μ κ : Valuation) :
    us.map (Term.value? (transport S f μ κ)) = ts.map (Term.value? μ) := by
  rw [h.values_eq hr hS]
  refine List.map_congr_left (fun t ht => ?_)
  cases t with
  | const c => rfl
  | var v =>
    cases hw : v.wildcard with
    | true => rw [Term.value?_wildcard hw, Term.value?_wildcard hw]
    | false => rw [Term.value?_var hw, Term.value?_var hw, h.transport_apply μ κ (hS v ⟨hw, ht⟩)]

end Relabeling

/-! ## The renaming state -/

namespace Renaming

/-- What a renaming that started at number `low` has decided is fresh and one-to-one. -/
structure Fresh (low : Nat) (r : Renaming) : Prop where
  le       : low ≤ r.pool.issued
  named    : ∀ p ∈ r.table, p.2.wildcard = false ∧ low ≤ p.2.id ∧ p.2.id < r.pool.issued
  distinct : (r.table.map Prod.snd).Nodup

/-- What was decided stays decided. -/
def Extends (r r' : Renaming) : Prop := ∀ v w, r.table.lookup v = some w → r'.table.lookup v = some w

theorem Extends.refl (r : Renaming) : Extends r r := fun _ _ h => h

theorem Extends.trans {r r' r'' : Renaming} (h : Extends r r') (h' : Extends r' r'') : Extends r r'' :=
  fun v w hv => h' v w (h v w hv)

/-- The renaming as a function. -/
def apply (r : Renaming) (v : Var) : Var := (r.table.lookup v).getD v

theorem rename_spec {low : Nat} {r : Renaming} (h : Fresh low r) (v : Var) :
    Fresh low (r.rename v).2 ∧ Extends r (r.rename v).2 ∧ (r.rename v).2.table.lookup v = some (r.rename v).1 := by
  unfold rename
  cases hl : r.table.lookup v with
  | some w => exact ⟨h, .refl r, hl⟩
  | none =>
    have hle := h.le
    refine ⟨⟨?_, ?_, ?_⟩, ?_, ?_⟩
    · show low ≤ r.pool.issued + 1
      omega
    · intro p hp
      show _ ∧ _ ∧ p.2.id < r.pool.issued + 1
      rcases List.mem_cons.1 hp with rfl | hp
      · exact ⟨rfl, hle, Nat.lt_succ_self _⟩
      · obtain ⟨h1, h2, h3⟩ := h.named p hp
        exact ⟨h1, h2, by omega⟩
    · refine List.nodup_cons.2 ⟨fun hm => ?_, h.distinct⟩
      obtain ⟨p, hp, e⟩ := List.mem_map.1 hm
      have hlt := (h.named p hp).2.2
      rw [e] at hlt
      exact absurd hlt (Nat.lt_irrefl _)
    · intro u w hu
      show List.lookup u ((v, _) :: r.table) = some w
      rw [List.lookup_cons]
      split
      · rename_i he
        rw [eq_of_beq he, hl] at hu
        cases hu
      · exact hu
    · show List.lookup v ((v, _) :: r.table) = _
      simp [VarPool.fresh]

theorem relabeled_of_extends {r r' : Renaming} {v w : Var} (hw : v.wildcard = false)
    (hl : r.table.lookup v = some w) (he : Extends r r') : Relabeled r'.apply (.var v) (.var w) := by
  simp only [Relabeled, hw, Bool.false_eq_true, if_false, apply, he v w hl, Option.getD_some]

theorem relabeled_wildcard {f : Var → Var} {v w : Var} (hv : v.wildcard = true) (hw : w.wildcard = true) :
    Relabeled f (.var v) (.var w) := by
  simp only [Relabeled, hv, if_true]
  exact ⟨w, hw, rfl⟩

/-- What renaming a list of terms does: whatever is decided later, the copy is the original renamed by it. -/
structure Copied (low : Nat) (r : Renaming) (ts : List Term) (out : List Term × Renaming) : Prop where
  fresh   : Fresh low out.2
  grows   : Extends r out.2
  decided : ∀ v, VarsOf ts v → ∃ w, out.2.table.lookup v = some w
  copy    : ∀ r', Extends out.2 r' → List.Forall₂ (Relabeled r'.apply) ts out.1

theorem Copied.cons {low : Nat} {r r₁ : Renaming} {t u : Term} {ts : List Term} {out : List Term × Renaming}
    (h : Copied low r₁ ts out) (hr : Extends r r₁)
    (ht : ∀ v, v.wildcard = false → t = .var v → ∃ w, r₁.table.lookup v = some w)
    (hu : ∀ r', Extends r₁ r' → Relabeled r'.apply t u) : Copied low r (t :: ts) (u :: out.1, out.2) := by
  refine ⟨h.fresh, hr.trans h.grows, fun v hv => ?_, fun r' hr' => ?_⟩
  · rcases List.mem_cons.1 hv.2 with hv' | hv'
    · obtain ⟨w, hw⟩ := ht v hv.1 hv'.symm
      exact ⟨w, h.grows v w hw⟩
    · exact h.decided v ⟨hv.1, hv'⟩
  · exact .cons (hu r' (h.grows.trans hr')) (h.copy r' hr')

theorem Copied.nil {low : Nat} {r : Renaming} (h : Fresh low r) : Copied low r [] ([], r) :=
  ⟨h, .refl r, fun _ hv => (by cases hv.2), fun _ _ => .nil⟩

theorem terms_copied {low : Nat} : ∀ (ts : List Term) {r : Renaming}, Fresh low r → Copied low r ts (r.terms ts)
  | [], _, h => .nil h
  | .const c :: ts, r, h =>
    (terms_copied ts h).cons (.refl r) (fun _ _ e => by cases e) (fun _ _ => rfl)
  | .var v :: ts, r, h => by
    cases hw : v.wildcard with
    | true =>
      have e : r.terms (.var v :: ts) = (.var v :: (r.terms ts).1, (r.terms ts).2) := by simp [terms, term, hw]
      rw [e]
      refine (terms_copied ts h).cons (.refl r) (fun u hu e => ?_) (fun _ _ => relabeled_wildcard hw hw)
      injection e with e
      rw [← e, hw] at hu
      cases hu
    | false =>
      obtain ⟨h1, h2, h3⟩ := rename_spec h v
      have e : r.terms (.var v :: ts) = (.var (r.rename v).1 :: ((r.rename v).2.terms ts).1, ((r.rename v).2.terms ts).2) := by
        simp [terms, term, hw]
      rw [e]
      refine (terms_copied ts h1).cons h2 (fun u _ e => ?_) (fun r' hr' => relabeled_of_extends hw h3 hr')
      injection e with e
      subst e
      exact ⟨_, h3⟩

theorem shuffled_copied {low : Nat} : ∀ (ts : List Term) {r : Renaming}, Fresh low r → Copied low r ts (r.shuffled ts)
  | [], _, h => .nil h
  | .const c :: ts, r, h =>
    (shuffled_copied ts h).cons (.refl r) (fun _ _ e => by cases e) (fun _ _ => rfl)
  | .var v :: ts, r, h => by
    cases hw : v.wildcard with
    | true =>
      have h' : Fresh low { r with pool := r.pool.wildcard.2 } := by
        have hle := h.le
        refine ⟨?_, fun p hp => ?_, h.distinct⟩
        · show low ≤ r.pool.issued + 1
          omega
        · obtain ⟨h1, h2, h3⟩ := h.named p hp
          refine ⟨h1, h2, ?_⟩
          show p.2.id < r.pool.issued + 1
          omega
      have e : r.shuffled (.var v :: ts) = (.var r.pool.wildcard.1 ::
          (shuffled { r with pool := r.pool.wildcard.2 } ts).1, (shuffled { r with pool := r.pool.wildcard.2 } ts).2) := by
        simp [shuffled, hw]
      rw [e]
      refine (shuffled_copied ts h').cons (.refl r) (fun u hu e => ?_) (fun _ _ => relabeled_wildcard hw rfl)
      injection e with e
      rw [← e, hw] at hu
      cases hu
    | false =>
      obtain ⟨h1, h2, h3⟩ := rename_spec h v
      have e : r.shuffled (.var v :: ts) =
          (.var (r.rename v).1 :: ((r.rename v).2.shuffled ts).1, ((r.rename v).2.shuffled ts).2) := by
        simp [shuffled, hw]
      rw [e]
      refine (shuffled_copied ts h1).cons h2 (fun u _ e => ?_) (fun r' hr' => relabeled_of_extends hw h3 hr')
      injection e with e
      subst e
      exact ⟨_, h3⟩

theorem fresh_start (pool : VarPool) : Fresh pool.issued ⟨pool, []⟩ :=
  ⟨Nat.le_refl _, fun _ h => (by cases h), List.nodup_nil⟩

theorem mem_of_lookup {α β : Type} [BEq α] [LawfulBEq α] {l : List (α × β)} {a : α} {b : β}
    (h : l.lookup a = some b) : (a, b) ∈ l := by
  obtain ⟨l₁, l₂, rfl, -⟩ := List.lookup_eq_some_iff.1 h
  simp

/-- A finished renaming is one into fresh variables. -/
theorem Fresh.relabeling {low : Nat} {r : Renaming} (h : Fresh low r) {S : Var → Prop}
    (hS : ∀ v, S v → ∃ w, r.table.lookup v = some w) : Relabeling S r.apply low r.pool.issued := by
  have happ : ∀ v, S v → (v, r.apply v) ∈ r.table := by
    intro v hv
    obtain ⟨w, hw⟩ := hS v hv
    rw [apply, hw]
    exact mem_of_lookup hw
  refine ⟨h.le, fun v hv => (h.named _ (happ v hv)).1, fun v hv => (h.named _ (happ v hv)).2.1,
    fun v hv => (h.named _ (happ v hv)).2.2, fun u v hu hv e => ?_⟩
  have h1 := happ u hu
  rw [e] at h1
  have := List.inj_on_of_nodup_map h.distinct h1 (happ v hv) rfl
  injection this

end Renaming

/-! ## Copies of literals and clauses -/

/-- The same literal with its variables renamed. -/
structure Literal.Copy {W : Type} (f : Var → Var) (l l' : Literal W) : Prop where
  weight    : l'.weight = l.weight
  predicate : l'.predicate = l.predicate
  terms     : List.Forall₂ (Relabeled f) l.terms l'.terms

/-- The variables of a clause, wildcards apart. -/
def Clause.VarsIn {W : Type} (c : Clause W) (v : Var) : Prop :=
  VarsOf c.head.terms v ∨ ∃ b ∈ c.body, VarsOf b.terms v

namespace Clause

variable {W : Type}

/-- What copying a list of literals does, one after the other: whatever is decided later, the copies are the originals
renamed by it. -/
structure Copied (low : Nat) (r : Renaming) (ls : List (Literal W)) (out : List (Literal W) × Renaming) : Prop where
  fresh   : out.2.Fresh low
  grows   : r.Extends out.2
  decided : ∀ v, (∃ l ∈ ls, VarsOf l.terms v) → ∃ w, out.2.table.lookup v = some w
  copy    : ∀ r', out.2.Extends r' → List.Forall₂ (Literal.Copy r'.apply) ls out.1

theorem Copied.nil {low : Nat} {r : Renaming} (h : r.Fresh low) : Copied low r ([] : List (Literal W)) ([], r) :=
  ⟨h, .refl r, fun v hv => (by obtain ⟨l, hl, -⟩ := hv; cases hl), fun _ _ => .nil⟩

theorem Copied.cons {low : Nat} {r : Renaming} {l : Literal W} {ts : List Term × Renaming} {ls : List (Literal W)}
    {out : List (Literal W) × Renaming} (hl : Renaming.Copied low r l.terms ts) (h : Copied low ts.2 ls out) :
    Copied low r (l :: ls) ({ l with terms := ts.1 } :: out.1, out.2) := by
  refine ⟨h.fresh, hl.grows.trans h.grows, fun v hv => ?_, fun r' hr' => ?_⟩
  · obtain ⟨m, hm, hv⟩ := hv
    rcases List.mem_cons.1 hm with rfl | hm
    · obtain ⟨w, hw⟩ := hl.decided v hv
      exact ⟨w, h.grows v w hw⟩
    · exact h.decided v ⟨m, hm, hv⟩
  · exact .cons ⟨rfl, rfl, hl.copy r' (h.grows.trans hr')⟩ (h.copy r' hr')

theorem renameLiterals_copied {low : Nat} : ∀ (ls : List (Literal W)) {r : Renaming}, r.Fresh low →
    Copied low r ls (renameLiterals r ls)
  | [],      _, h => .nil h
  | l :: ls, _, h =>
    have hl := Renaming.terms_copied l.terms h
    .cons hl (renameLiterals_copied ls hl.fresh)

/-- The same clause with its variables renamed. -/
structure Copy (f : Var → Var) (c c' : Clause W) : Prop where
  head : Literal.Copy f c.head c'.head
  body : List.Forall₂ (Literal.Copy f) c.body c'.body

/-- **A clause that is copied literal by literal is a copy in fresh variables.** -/
theorem copy_of_copied {low : Nat} {r : Renaming} {c : Clause W} {ts : List Term × Renaming}
    {out : List (Literal W) × Renaming} (hhead : Renaming.Copied low r c.head.terms ts) (hbody : Copied low ts.2 c.body out) :
    ∃ f, Relabeling c.VarsIn f low out.2.pool.issued ∧ Copy f c ⟨{ c.head with terms := ts.1 }, out.1⟩ := by
  refine ⟨out.2.apply, hbody.fresh.relabeling (fun v hv => ?_), ⟨rfl, rfl, hhead.copy _ hbody.grows⟩, hbody.copy _ (.refl _)⟩
  rcases hv with hv | hv
  · obtain ⟨w, hw⟩ := hhead.decided v hv
    exact ⟨w, hbody.grows v w hw⟩
  · exact hbody.decided v hv

/-- **A renamed clause is a copy in fresh variables.** -/
theorem rename_spec (c : Clause W) (pool : VarPool) : ∃ f, Relabeling c.VarsIn f pool.issued (c.rename pool).2.issued ∧
    Literal.Copy f c.head (c.rename pool).1.head ∧ List.Forall₂ (Literal.Copy f) c.body (c.rename pool).1.body := by
  have hhead := Renaming.terms_copied c.head.terms (Renaming.fresh_start pool)
  obtain ⟨f, hf, h⟩ := copy_of_copied hhead (renameLiterals_copied c.body hhead.fresh)
  exact ⟨f, hf, h.head, h.body⟩

end Clause

namespace Literal

variable {W : Type}

/-- **A shuffled literal is a copy in fresh variables.** -/
theorem shuffle_spec (l : Literal W) (pool : VarPool) :
    ∃ f, Relabeling (VarsOf l.terms) f pool.issued (l.shuffle pool).2.issued ∧ Copy f l (l.shuffle pool).1 := by
  have h := Renaming.shuffled_copied l.terms (Renaming.fresh_start pool)
  exact ⟨_, h.fresh.relabeling h.decided, ⟨rfl, rfl, h.copy _ (.refl _)⟩⟩

variable {S : Var → Prop} {f : Var → Var} {low high : Nat} {l l' : Literal W}

theorem Copy.values_eq (h : Copy f l l') (hf : Relabeling S f low high) (hS : ∀ v, VarsOf l.terms v → S v)
    (ν : Valuation) : l'.values ν = l.values (fun v => ν (f v)) :=
  hf.values_eq h.terms hS ν

theorem Copy.values_transport (h : Copy f l l') (hf : Relabeling S f low high) (hS : ∀ v, VarsOf l.terms v → S v)
    (μ κ : Valuation) : l'.values (Relabeling.transport S f μ κ) = l.values μ :=
  hf.values_transport h.terms hS μ κ

/-- A copy covers what the original covers. -/
theorem Copy.covers_iff (h : Copy f l l') (hf : Relabeling S f low high) (hS : ∀ v, VarsOf l.terms v → S v) (a : Atom) :
    l'.Covers a ↔ l.Covers a := by
  constructor
  · rintro ⟨ν, hp, hv⟩
    rw [h.values_eq hf hS] at hv
    exact ⟨_, h.predicate ▸ hp, hv⟩
  · rintro ⟨μ, hp, hv⟩
    rw [← h.values_transport hf hS μ μ] at hv
    exact ⟨_, h.predicate.trans hp, hv⟩

/-- The terms of a copy: the constants of the original, fresh variables, and wildcards. -/
theorem Copy.mem_terms (h : Copy f l l') {u : Term} (hu : u ∈ l'.terms) :
    (∃ c, u = .const c ∧ u ∈ l.terms) ∨ (∃ v, VarsOf l.terms v ∧ u = .var (f v)) ∨ u.isWildcard = true := by
  have key : ∀ {ts us : List Term}, List.Forall₂ (Relabeled f) ts us → u ∈ us →
      (∃ c, u = .const c ∧ u ∈ ts) ∨ (∃ v, VarsOf ts v ∧ u = .var (f v)) ∨ u.isWildcard = true := by
    intro ts us hr
    induction hr with
    | nil => intro hu; cases hu
    | @cons t u' ts us htu _ ih =>
      intro hu
      rcases List.mem_cons.1 hu with rfl | hu
      · cases t with
        | const c =>
          have e : u = .const c := htu
          exact .inl ⟨c, e, by rw [e]; exact List.mem_cons_self⟩
        | var v =>
          cases hw : v.wildcard with
          | true =>
            simp only [Relabeled, hw, if_true] at htu
            obtain ⟨w, hw', rfl⟩ := htu
            exact .inr (.inr hw')
          | false =>
            simp only [Relabeled, hw, Bool.false_eq_true, if_false] at htu
            exact .inr (.inl ⟨v, ⟨hw, List.mem_cons_self⟩, htu⟩)
      · rcases ih hu with ⟨c, e, hc⟩ | ⟨v, hv, e⟩ | hw
        · exact .inl ⟨c, e, List.mem_cons_of_mem _ hc⟩
        · exact .inr (.inl ⟨v, ⟨hv.1, List.mem_cons_of_mem _ hv.2⟩, e⟩)
        · exact .inr (.inr hw)
  exact key h.terms hu

end Literal

/-! ## The forms of copies -/

theorem lookup_map {α β γ δ : Type} [BEq α] [LawfulBEq α] [BEq γ] [LawfulBEq γ] {f : α → γ} (g : β → δ) {a : α} :
    ∀ {l : List (α × β)}, (∀ b ∈ l, f a = f b.1 → a = b.1) →
      (l.map (fun b => (f b.1, g b.2))).lookup (f a) = (l.lookup a).map g
  | [],      _ => rfl
  | b :: bs, h => by
    obtain ⟨hb, hbs⟩ := List.forall_mem_cons.1 h
    rw [List.map_cons, List.lookup_cons, List.lookup_cons, lookup_map g hbs]
    by_cases hab : a = b.1
    · subst hab
      rw [beq_self_eq_true, beq_self_eq_true]
      rfl
    · rw [beq_eq_false_iff_ne.2 hab, beq_eq_false_iff_ne.2 (fun e => hab (hb e))]

theorem idxOf_map {α β : Type} [BEq α] [LawfulBEq α] [BEq β] [LawfulBEq β] {f : α → β} {a : α} :
    ∀ {l : List α}, (∀ b ∈ l, f b = f a → b = a) → (l.map f).idxOf (f a) = l.idxOf a
  | [],      _ => rfl
  | b :: bs, h => by
    obtain ⟨hb, hbs⟩ := List.forall_mem_cons.1 h
    rw [List.map_cons, List.idxOf_cons, List.idxOf_cons, idxOf_map hbs]
    by_cases hab : b = a
    · subst hab
      rw [beq_self_eq_true, beq_self_eq_true]
    · rw [beq_eq_false_iff_ne.2 hab, beq_eq_false_iff_ne.2 (fun e => hab (hb e))]

section Forms

variable {W : Type} {S : Var → Prop} {f : Var → Var} (hnamed : ∀ v, S v → (f v).wildcard = false)
  (hinj : ∀ u v, S u → S v → f u = f v → u = v)

include hnamed hinj

theorem numberTerms_relabeled {ts us : List Term} (h : List.Forall₂ (Relabeled f) ts us) (hS : ∀ v, VarsOf ts v → S v) :
    ∀ (seen : List (Var × Nat)) (next : Nat), (∀ b ∈ seen, S b.1) →
      Literal.numberTerms (seen.map (fun b => (f b.1, b.2))) next us = Literal.numberTerms seen next ts := by
  induction h with
  | nil => exact fun _ _ _ => rfl
  | @cons t u ts us htu _ ih =>
    intro seen next hseen
    have ih := ih (fun v hv => hS v ⟨hv.1, List.mem_cons_of_mem _ hv.2⟩)
    cases t with
    | const c =>
      obtain rfl : u = .const c := htu
      rw [Literal.numberTerms, Literal.numberTerms, ih seen next hseen]
    | var v =>
      cases hw : v.wildcard with
      | true =>
        simp only [Relabeled, hw, if_true] at htu
        obtain ⟨w, hw', rfl⟩ := htu
        rw [Literal.numberTerms, Literal.numberTerms, if_pos hw', if_pos hw, ih seen (next + 1) hseen]
      | false =>
        simp only [Relabeled, hw, Bool.false_eq_true, if_false] at htu
        subst htu
        have hv : S v := hS v ⟨hw, List.mem_cons_self⟩
        have hlookup : (seen.map (fun b => (f b.1, b.2))).lookup (f v) = (seen.lookup v).map (fun k => k) :=
          lookup_map (fun k => k) (fun b hb e => hinj _ _ hv (hseen b hb) e)
        rw [Literal.numberTerms, Literal.numberTerms, if_neg (by simp [hnamed v hv]), if_neg (by simp [hw]), hlookup,
          Option.map_id']
        cases seen.lookup v with
        | some k => exact congrArg _ (ih seen next hseen)
        | none => exact congrArg _ (ih ((v, next) :: seen) (next + 1) (List.forall_mem_cons.2 ⟨hv, hseen⟩))

/-- **A copy has the variant of the original.** -/
theorem Literal.Copy.variant {l l' : Literal W} (h : Literal.Copy f l l') (hS : ∀ v, VarsOf l.terms v → S v) :
    l'.variant = l.variant := by
  have hnumbers : l'.numbers = l.numbers :=
    numberTerms_relabeled hnamed hinj h.terms hS [] 0 (fun _ hb => nomatch hb)
  have hterm : ∀ {t u : Term} (k : Option Nat), Relabeled f t u → variantTerm u k = variantTerm t k := by
    intro t u k htu
    cases t with
    | const c => rw [show u = .const c from htu]
    | var v =>
      cases hw : v.wildcard with
      | true =>
        simp only [Relabeled, hw, if_true] at htu
        obtain ⟨w, -, rfl⟩ := htu
        rfl
      | false =>
        simp only [Relabeled, hw, Bool.false_eq_true, if_false] at htu
        rw [htu]
        rfl
  have hzip : ∀ {ts us : List Term}, List.Forall₂ (Relabeled f) ts us → ∀ ks : List (Option Nat),
      List.zipWith variantTerm us ks = List.zipWith variantTerm ts ks := by
    intro ts us h
    induction h with
    | nil => exact fun _ => rfl
    | cons htu _ ih =>
      intro ks
      cases ks with
      | nil => rfl
      | cons k ks => rw [List.zipWith_cons_cons, List.zipWith_cons_cons, hterm k htu, ih ks]
  rw [Literal.variant, Literal.variant, hnumbers, hzip h.terms, name, name, h.predicate]

namespace Clause

theorem canonicalTerms_relabeled {ts us : List Term} (h : List.Forall₂ (Relabeled f) ts us) (hS : ∀ v, VarsOf ts v → S v) :
    ∀ seen : List Var, (∀ v ∈ seen, S v) →
      canonicalTerms (seen.map f) us = ((canonicalTerms seen ts).1, (canonicalTerms seen ts).2.map f) ∧
        ∀ v ∈ (canonicalTerms seen ts).2, S v := by
  induction h with
  | nil => exact fun _ hseen => ⟨rfl, hseen⟩
  | @cons t u ts us htu _ ih =>
    intro seen hseen
    have ih := ih (fun v hv => hS v ⟨hv.1, List.mem_cons_of_mem _ hv.2⟩)
    cases t with
    | const c =>
      obtain rfl : u = .const c := htu
      obtain ⟨h1, h2⟩ := ih seen hseen
      rw [canonicalTerms, canonicalTerms, h1]
      exact ⟨rfl, h2⟩
    | var v =>
      cases hw : v.wildcard with
      | true =>
        simp only [Relabeled, hw, if_true] at htu
        obtain ⟨w, hw', rfl⟩ := htu
        obtain ⟨h1, h2⟩ := ih seen hseen
        rw [canonicalTerms, canonicalTerms, if_pos hw', if_pos hw, h1]
        exact ⟨rfl, h2⟩
      | false =>
        simp only [Relabeled, hw, Bool.false_eq_true, if_false] at htu
        subst htu
        have hv : S v := hS v ⟨hw, List.mem_cons_self⟩
        have hidx : (seen.map f).idxOf (f v) = seen.idxOf v := idxOf_map (fun b hb e => hinj _ _ (hseen b hb) hv e)
        have hnext : ∀ w ∈ (if seen.idxOf v < seen.length then seen else seen ++ [v]), S w := by
          split
          · exact hseen
          · exact fun w hw => (List.mem_append.1 hw).elim (hseen w) (fun hw => List.mem_singleton.1 hw ▸ hv)
        have hmap : (if seen.idxOf v < seen.length then seen.map f else seen.map f ++ [f v]) =
            (if seen.idxOf v < seen.length then seen else seen ++ [v]).map f := by
          split
          · rfl
          · rw [List.map_append, List.map_singleton]
        obtain ⟨h1, h2⟩ := ih _ hnext
        rw [canonicalTerms, canonicalTerms, if_neg (by simp [hnamed v hv]), if_neg (by simp [hw])]
        simp only [hidx, List.length_map, hmap, h1]
        exact ⟨trivial, h2⟩

variable [Weight W]

theorem canonicalLiteral_copy {l l' : Literal W} (h : Literal.Copy f l l') (hS : ∀ v, VarsOf l.terms v → S v)
    (seen : List Var) (hseen : ∀ v ∈ seen, S v) :
    canonicalLiteral (seen.map f) l' = ((canonicalLiteral seen l).1, (canonicalLiteral seen l).2.map f) ∧
      ∀ v ∈ (canonicalLiteral seen l).2, S v := by
  obtain ⟨h1, h2⟩ := canonicalTerms_relabeled hnamed hinj h.terms hS seen hseen
  refine ⟨?_, h2⟩
  simp only [canonicalLiteral, h1, h.weight, Literal.name, h.predicate]

theorem canonicalLiterals_copy {ls ls' : List (Literal W)} (h : List.Forall₂ (Literal.Copy f) ls ls')
    (hS : ∀ l ∈ ls, ∀ v, VarsOf l.terms v → S v) : ∀ seen : List Var, (∀ v ∈ seen, S v) →
      canonicalLiterals (seen.map f) ls' = canonicalLiterals seen ls := by
  induction h with
  | nil => exact fun _ _ => rfl
  | cons hll _ ih =>
    intro seen hseen
    obtain ⟨h1, h2⟩ := canonicalLiteral_copy hnamed hinj hll (hS _ List.mem_cons_self) seen hseen
    rw [canonicalLiterals, canonicalLiterals, h1]
    exact congrArg _ (ih (fun l hl => hS l (List.mem_cons_of_mem _ hl)) _ h2)

theorem Copy.fingerprint {c c' : Clause W} (h : Copy f c c') (hS : ∀ v, c.VarsIn v → S v) :
    c'.fingerprint = c.fingerprint := by
  obtain ⟨h1, h2⟩ := canonicalLiteral_copy hnamed hinj h.head (fun v hv => hS v (.inl hv)) []
    (fun v hv => nomatch hv)
  have hbody := canonicalLiterals_copy hnamed hinj h.body (fun l hl v hv => hS v (.inr ⟨l, hl, hv⟩)) _ h2
  have hempty : c'.body.isEmpty = c.body.isEmpty := by
    rw [Bool.eq_iff_iff, List.isEmpty_iff_length_eq_zero, List.isEmpty_iff_length_eq_zero, h.body.length_eq]
  rw [List.map_nil] at h1
  simp only [Clause.fingerprint, h1, hbody, hempty]

/-- **A copy is known by the key of the original.** -/
theorem Copy.key {c c' : Clause W} (h : Copy f c c') (hS : ∀ v, c.VarsIn v → S v) : c'.key = c.key := by
  rw [Clause.key, Clause.key, h.fingerprint hnamed hinj hS, h.body.length_eq]

end Clause

end Forms

end Credence
