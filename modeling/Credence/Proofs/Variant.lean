import Credence.Proofs.Keys
/-!
# Literals up to the names of variables

The variant of a literal is the text of its shape: constants as they are, and for every variable the number of its first
occurrence.  Which atoms a literal covers depends on its shape only (`covers_iff_shape`), so literals of one variant
cover the same atoms (`covers_iff_of_variant_eq`), and without variables they have the same values.
-/
namespace Credence
namespace Literal

variable {W : Type}

/-! ## Shapes -/

def shapeTerm : Term → Option Nat → Constant ⊕ Nat
  | .const c, _ => .inl c
  | .var _,   n => .inr (n.getD 0)

def shapeText : Constant ⊕ Nat → String
  | .inl c => c.printed
  | .inr n => "?" ++ toString n

def shapes (seen : List (Var × Nat)) (next : Nat) (ts : List Term) : List (Constant ⊕ Nat) :=
  List.zipWith shapeTerm ts (numberTerms seen next ts)

def shape (l : Literal W) : List (Constant ⊕ Nat) := shapes [] 0 l.terms

theorem variant_congr {l m : Literal W} (hp : l.predicate = m.predicate) (ht : l.terms = m.terms) : l.variant = m.variant := by
  simp only [variant, name, numbers, hp, ht]

theorem shapes_const (seen : List (Var × Nat)) (next : Nat) (c : Constant) (ts : List Term) :
    shapes seen next (.const c :: ts) = .inl c :: shapes seen next ts := rfl

theorem shapes_wildcard (seen : List (Var × Nat)) (next : Nat) {v : Var} (h : v.wildcard = true) (ts : List Term) :
    shapes seen next (.var v :: ts) = .inr next :: shapes seen (next + 1) ts := by
  simp [shapes, numberTerms, h, shapeTerm]

theorem shapes_seen {seen : List (Var × Nat)} (next : Nat) {v : Var} {n : Nat} (h : v.wildcard = false)
    (hl : seen.lookup v = some n) (ts : List Term) :
    shapes seen next (.var v :: ts) = .inr n :: shapes seen next ts := by
  simp [shapes, numberTerms, h, hl, shapeTerm]

theorem shapes_new {seen : List (Var × Nat)} (next : Nat) {v : Var} (h : v.wildcard = false)
    (hl : seen.lookup v = none) (ts : List Term) :
    shapes seen next (.var v :: ts) = .inr next :: shapes ((v, next) :: seen) (next + 1) ts := by
  simp [shapes, numberTerms, h, hl, shapeTerm]

theorem numberTerms_length : ∀ (seen : List (Var × Nat)) (next : Nat) (ts : List Term),
    (numberTerms seen next ts).length = ts.length
  | _,    _,    []             => rfl
  | seen, next, .const _ :: ts => by simp [numberTerms, numberTerms_length seen next ts]
  | seen, next, .var v :: ts   => by
    rw [numberTerms]
    split
    · simp [numberTerms_length seen (next + 1) ts]
    · split
      · simp [numberTerms_length seen next ts]
      · simp [numberTerms_length _ (next + 1) ts]

@[simp] theorem shape_length (l : Literal W) : l.shape.length = l.terms.length := by
  simp [shape, shapes, numberTerms_length]

theorem variant_eq (l : Literal W) : l.variant = applied "," l.name (l.shape.map shapeText) := by
  have key : ∀ (ts : List Term) (ns : List (Option Nat)),
      List.zipWith variantTerm ts ns = (List.zipWith shapeTerm ts ns).map shapeText := by
    intro ts
    induction ts with
    | nil => intro ns; simp
    | cons t ts ih =>
      intro ns
      cases ns with
      | nil => simp
      | cons n ns =>
        simp only [List.zipWith_cons_cons, List.map_cons, ih]
        cases t <;> rfl
  rw [variant, key]
  rfl

/-- The constants of a shape are those of the literal, and its numbers are below the number of terms. -/
theorem mem_shapes : ∀ (ts : List Term) (seen : List (Var × Nat)) (next : Nat), (∀ p ∈ seen, p.2 < next) →
    ∀ x ∈ shapes seen next ts, (∃ c, x = .inl c ∧ Term.const c ∈ ts) ∨ ∃ n, x = .inr n ∧ n < next + ts.length
  | [], _, _, _, x, hx => by simp [shapes] at hx
  | .const c :: ts, seen, next, hs, x, hx => by
    rw [shapes_const, List.mem_cons] at hx
    rcases hx with rfl | hx
    · exact .inl ⟨c, rfl, List.mem_cons_self⟩
    · rcases mem_shapes ts seen next hs x hx with ⟨d, rfl, hd⟩ | ⟨n, rfl, hn⟩
      · exact .inl ⟨d, rfl, List.mem_cons_of_mem _ hd⟩
      · exact .inr ⟨n, rfl, by simp only [List.length_cons]; omega⟩
  | .var v :: ts, seen, next, hs, x, hx => by
    have step : ∀ (seen' : List (Var × Nat)) (next' : Nat), next ≤ next' → next' ≤ next + 1 → (∀ p ∈ seen', p.2 < next') →
        x ∈ shapes seen' next' ts →
          (∃ c, x = .inl c ∧ Term.const c ∈ Term.var v :: ts) ∨ ∃ n, x = .inr n ∧ n < next + (Term.var v :: ts).length := by
      intro seen' next' _ h1 h2 h3
      rcases mem_shapes ts seen' next' h2 x h3 with ⟨d, rfl, hd⟩ | ⟨n, rfl, hn⟩
      · exact .inl ⟨d, rfl, List.mem_cons_of_mem _ hd⟩
      · exact .inr ⟨n, rfl, by simp only [List.length_cons]; omega⟩
    cases hw : v.wildcard with
    | true =>
      rw [shapes_wildcard seen next hw, List.mem_cons] at hx
      rcases hx with rfl | hx
      · exact .inr ⟨next, rfl, by simp only [List.length_cons]; omega⟩
      · exact step seen (next + 1) (by omega) (by omega) (fun p hp => by have := hs p hp; omega) hx
    | false =>
      cases hl : seen.lookup v with
      | some n =>
        rw [shapes_seen next hw hl, List.mem_cons] at hx
        rcases hx with rfl | hx
        · obtain ⟨l₁, l₂, rfl, -⟩ := List.lookup_eq_some_iff.1 hl
          have := hs (v, n) (by simp)
          exact .inr ⟨n, rfl, by simp only [List.length_cons]; simp only at this; omega⟩
        · exact step seen next (by omega) (by omega) hs hx
      | none =>
        rw [shapes_new next hw hl, List.mem_cons] at hx
        rcases hx with rfl | hx
        · exact .inr ⟨next, rfl, by simp only [List.length_cons]; omega⟩
        · refine step ((v, next) :: seen) (next + 1) (by omega) (by omega) (fun p hp => ?_) hx
          rcases List.mem_cons.1 hp with rfl | hp
          · exact Nat.lt_succ_self _
          · have := hs p hp; omega

theorem mem_shape {l : Literal W} {x : Constant ⊕ Nat} (h : x ∈ l.shape) :
    (∃ c, x = .inl c ∧ Term.const c ∈ l.terms) ∨ ∃ n, x = .inr n ∧ n < l.terms.length := by
  have := mem_shapes l.terms [] 0 (fun p hp => by cases hp) x h
  simpa using this

theorem shapeText_inj {x y : Constant ⊕ Nat} (hx : ∀ c, x = .inl c → c.isPlain = true)
    (hy : ∀ c, y = .inl c → c.isPlain = true) (h : shapeText x = shapeText y) : x = y := by
  have hq : ∀ (c : Constant) (n : Nat), c.isPlain = true → c.printed ≠ "?" ++ toString n := by
    intro c n hc e
    simp only [Constant.isPlain, Bool.and_eq_true] at hc
    have := List.all_eq_true.1 hc.1.2 '?' (by rw [e]; simp)
    exact absurd this (by decide)
  cases x with
  | inl c =>
    cases y with
    | inl d =>
      cases c; cases d
      simp only [shapeText] at h
      rw [h]
    | inr n => exact absurd h (hq c n (hx c rfl))
  | inr m =>
    cases y with
    | inl d => exact absurd h.symm (hq d m (hy d rfl))
    | inr n =>
      have h' := congrArg String.toList h
      simp only [shapeText, String.toList_append] at h'
      rw [Text.toString_nat_inj (String.toList_injective (List.append_cancel_left h'))]

theorem shapeText_no_mark {x : Constant ⊕ Nat} (hx : ∀ c, x = .inl c → c.isPlain = true) :
    ',' ∉ (shapeText x).toList := by
  intro h
  cases x with
  | inl c => exact Constant.isPlain.not_isMark (hx c rfl) _ h (by simp [IsMark])
  | inr n =>
    simp only [shapeText, String.toList_append, List.mem_append] at h
    rcases h with h | h
    · exact absurd h (by decide)
    · exact Text.not_mem_toString (by decide) h

theorem shape_isPlain {l : Literal W} (h : l.isPlain = true) : ∀ x ∈ l.shape, ∀ c, x = .inl c → c.isPlain = true := by
  rintro x hx c rfl
  rcases mem_shape hx with ⟨d, e, hd⟩ | ⟨n, e, -⟩
  · injection e with e
    exact e ▸ isPlain.terms h _ hd
  · cases e

/-- **Literals of one variant have one predicate and one shape.** -/
theorem shape_eq_of_variant_eq {l m : Literal W} (hl : l.isPlain = true) (hm : m.isPlain = true)
    (h : l.variant = m.variant) : l.predicate = m.predicate ∧ l.shape = m.shape := by
  rw [variant_eq, variant_eq] at h
  have hparen : IsMark '(' := by simp [IsMark]
  have hcomma : ∀ {k : Literal W}, k.isPlain = true → ∀ a ∈ k.shape.map shapeText, ',' ∉ a.toList := by
    intro k hk a ha
    obtain ⟨x, hx, rfl⟩ := List.mem_map.1 ha
    exact shapeText_no_mark (shape_isPlain hk x hx)
  obtain ⟨hname, hargs⟩ := applied_inj (name_no_mark hl hparen) (name_no_mark hm hparen) (hcomma hl) (hcomma hm) h
  have hmap : ∀ {xs ys : List (Constant ⊕ Nat)}, (∀ x ∈ xs, ∀ c, x = .inl c → c.isPlain = true) →
      (∀ y ∈ ys, ∀ c, y = .inl c → c.isPlain = true) → xs.map shapeText = ys.map shapeText → xs = ys := by
    intro xs
    induction xs with
    | nil => intro ys _ _ h; cases ys with
      | nil => rfl
      | cons y ys => cases h
    | cons x xs ih => intro ys hx hy h; cases ys with
      | nil => cases h
      | cons y ys =>
        simp only [List.map_cons, List.cons.injEq] at h
        rw [shapeText_inj (hx x List.mem_cons_self) (hy y List.mem_cons_self) h.1,
          ih (fun z hz => hx z (List.mem_cons_of_mem _ hz)) (fun z hz => hy z (List.mem_cons_of_mem _ hz)) h.2]
  have hshape := hmap (shape_isPlain hl) (shape_isPlain hm) hargs
  refine ⟨?_, hshape⟩
  have hlen : l.terms.length = m.terms.length := by
    have := congrArg List.length hshape
    simpa using this
  rw [isWellFormed_iff.1 (isPlain.wellFormed hl), isWellFormed_iff.1 (isPlain.wellFormed hm)] at hlen
  cases hp : l.predicate; cases hq : m.predicate
  simp only [name, hp, hq] at hname hlen
  rw [hname, hlen]

/-! ## Covering by shape -/

/-- A place of a shape has room for a constant when each number stands for one. -/
def ShapeFits (ρ : Nat → Constant) : Constant ⊕ Nat → Constant → Prop
  | .inl d, c => d = c
  | .inr n, c => ρ n = c

theorem shapeFits_of_allows (ν : Valuation) : ∀ (ts : List Term) (cs : List Constant) (seen : List (Var × Nat))
    (next : Nat) (ρ₀ : Nat → Constant), (∀ v n, seen.lookup v = some n → n < next ∧ ρ₀ n = ν v) →
    List.Forall₂ Allows (ts.map (Term.value? ν)) cs →
    ∃ ρ : Nat → Constant, (∀ n < next, ρ n = ρ₀ n) ∧ List.Forall₂ (ShapeFits ρ) (shapes seen next ts) cs
  | [], [], _, _, ρ₀, _, _ => ⟨ρ₀, fun _ _ => rfl, by simp [shapes]⟩
  | .const d :: ts, c :: cs, seen, next, ρ₀, hs, h => by
    rw [List.map_cons, List.forall₂_cons] at h
    obtain ⟨ρ, hρ, hf⟩ := shapeFits_of_allows ν ts cs seen next ρ₀ hs h.2
    refine ⟨ρ, hρ, ?_⟩
    rw [shapes_const, List.forall₂_cons]
    exact ⟨by simpa [Allows, Term.value?, ShapeFits] using h.1, hf⟩
  | .var v :: ts, c :: cs, seen, next, ρ₀, hs, h => by
    rw [List.map_cons, List.forall₂_cons] at h
    -- a number that is new gets the constant at its place; those below keep theirs
    have hnew : ∀ seen', (∀ w n, seen'.lookup w = some n → n < next + 1 ∧ Function.update ρ₀ next c n = ν w) →
        ∃ ρ : Nat → Constant, (∀ n < next, ρ n = ρ₀ n) ∧ ρ next = c ∧
          List.Forall₂ (ShapeFits ρ) (shapes seen' (next + 1) ts) cs := by
      intro seen' hs'
      obtain ⟨ρ, hρ, hf⟩ := shapeFits_of_allows ν ts cs seen' (next + 1) (Function.update ρ₀ next c) hs' h.2
      refine ⟨ρ, fun n hn => ?_, ?_, hf⟩
      · rw [hρ n (by omega), Function.update_of_ne (by omega)]
      · rw [hρ next (by omega), Function.update_self]
    have hold : ∀ w n, seen.lookup w = some n → n < next + 1 ∧ Function.update ρ₀ next c n = ν w := by
      intro w n hw
      obtain ⟨h1, h2⟩ := hs w n hw
      exact ⟨by omega, by rw [Function.update_of_ne (by omega), h2]⟩
    cases hw : v.wildcard with
    | true =>
      obtain ⟨ρ, hρ, hc, hf⟩ := hnew seen hold
      refine ⟨ρ, hρ, ?_⟩
      rw [shapes_wildcard seen next hw, List.forall₂_cons]
      exact ⟨hc, hf⟩
    | false =>
      have hv : ν v = c := by
        have := h.1
        rw [Term.value?_var hw] at this
        simpa [Allows] using this
      cases hl : seen.lookup v with
      | some n =>
        obtain ⟨ρ, hρ, hf⟩ := shapeFits_of_allows ν ts cs seen next ρ₀ hs h.2
        refine ⟨ρ, hρ, ?_⟩
        rw [shapes_seen next hw hl, List.forall₂_cons]
        obtain ⟨h1, h2⟩ := hs v n hl
        exact ⟨by show ρ n = c; rw [hρ n h1, h2, hv], hf⟩
      | none =>
        obtain ⟨ρ, hρ, hc, hf⟩ := hnew ((v, next) :: seen) (by
          intro w n hwn
          rw [List.lookup_cons] at hwn
          split at hwn
          · rename_i he
            injection hwn with hwn
            subst hwn
            rw [eq_of_beq he, hv, Function.update_self]
            exact ⟨by omega, rfl⟩
          · exact hold w n hwn)
        refine ⟨ρ, hρ, ?_⟩
        rw [shapes_new next hw hl, List.forall₂_cons]
        exact ⟨hc, hf⟩

theorem allows_of_shapeFits (ρ : Nat → Constant) : ∀ (ts : List Term) (cs : List Constant) (seen : List (Var × Nat))
    (next : Nat) (ν₀ : Valuation), (∀ v n, seen.lookup v = some n → ν₀ v = ρ n) →
    List.Forall₂ (ShapeFits ρ) (shapes seen next ts) cs →
    ∃ ν : Valuation, (∀ v n, seen.lookup v = some n → ν v = ρ n) ∧ List.Forall₂ Allows (ts.map (Term.value? ν)) cs
  | [], cs, _, _, ν₀, hs, h => ⟨ν₀, hs, by simpa [shapes] using h⟩
  | .const d :: ts, [], seen, next, _, _, h => by rw [shapes_const] at h; cases h
  | .const d :: ts, c :: cs, seen, next, ν₀, hs, h => by
    rw [shapes_const, List.forall₂_cons] at h
    obtain ⟨ν, hν, hf⟩ := allows_of_shapeFits ρ ts cs seen next ν₀ hs h.2
    refine ⟨ν, hν, ?_⟩
    rw [List.map_cons, List.forall₂_cons]
    exact ⟨.inr (congrArg some h.1), hf⟩
  | .var v :: ts, cs, seen, next, ν₀, hs, h => by
    cases hw : v.wildcard with
    | true =>
      rw [shapes_wildcard seen next hw] at h
      cases cs with
      | nil => cases h
      | cons c cs =>
        rw [List.forall₂_cons] at h
        obtain ⟨ν, hν, hf⟩ := allows_of_shapeFits ρ ts cs seen (next + 1) ν₀ hs h.2
        refine ⟨ν, hν, ?_⟩
        rw [List.map_cons, List.forall₂_cons]
        exact ⟨.inl (Term.value?_wildcard hw ν), hf⟩
    | false =>
      cases hl : seen.lookup v with
      | some n =>
        rw [shapes_seen next hw hl] at h
        cases cs with
        | nil => cases h
        | cons c cs =>
          rw [List.forall₂_cons] at h
          obtain ⟨ν, hν, hf⟩ := allows_of_shapeFits ρ ts cs seen next ν₀ hs h.2
          refine ⟨ν, hν, ?_⟩
          rw [List.map_cons, List.forall₂_cons, Term.value?_var hw, hν v n hl]
          exact ⟨.inr (congrArg some h.1), hf⟩
      | none =>
        rw [shapes_new next hw hl] at h
        cases cs with
        | nil => cases h
        | cons c cs =>
          rw [List.forall₂_cons] at h
          obtain ⟨ν, hν, hf⟩ := allows_of_shapeFits ρ ts cs ((v, next) :: seen) (next + 1)
            (Function.update ν₀ v (ρ next)) (by
              intro w n hwn
              rw [List.lookup_cons] at hwn
              split at hwn
              · rename_i he
                injection hwn with hwn
                rw [eq_of_beq he, Function.update_self, hwn]
              · rename_i he
                rw [Function.update_of_ne (by rintro rfl; simp at he)]
                exact hs w n hwn) h.2
          have hv : ν v = ρ next := hν v next (by simp)
          refine ⟨ν, fun w n hwn => hν w n ?_, ?_⟩
          · rw [List.lookup_cons]
            split
            · rename_i he
              rw [eq_of_beq he, hl] at hwn
              cases hwn
            · exact hwn
          · rw [List.map_cons, List.forall₂_cons, Term.value?_var hw, hv]
            exact ⟨.inr (congrArg some h.1), hf⟩

/-- **What a literal covers is decided by its shape.** -/
theorem covers_iff_shape (l : Literal W) (a : Atom) :
    l.Covers a ↔ l.predicate = a.predicate ∧ ∃ ρ, List.Forall₂ (ShapeFits ρ) l.shape a.args := by
  constructor
  · rintro ⟨ν, hp, h⟩
    obtain ⟨ρ, -, hf⟩ := shapeFits_of_allows ν l.terms a.args [] 0 (fun _ => ⟨""⟩) (fun v n h => by cases h) h
    exact ⟨hp, ρ, hf⟩
  · rintro ⟨hp, ρ, hf⟩
    obtain ⟨ν, -, h⟩ := allows_of_shapeFits ρ l.terms a.args [] 0 (fun _ => ⟨""⟩) (fun v n h => by cases h) hf
    exact ⟨ν, hp, h⟩

theorem covers_iff_of_variant_eq {l m : Literal W} (hl : l.isPlain = true) (hm : m.isPlain = true)
    (h : l.variant = m.variant) (a : Atom) : l.Covers a ↔ m.Covers a := by
  obtain ⟨hp, hs⟩ := shape_eq_of_variant_eq hl hm h
  rw [covers_iff_shape, covers_iff_shape, hp, hs]

/-! ## Literals without variables -/

theorem shapes_semiGrounded (ν : Valuation) : ∀ (ts : List Term) (seen : List (Var × Nat)) (next : Nat),
    (∀ t ∈ ts, (t.isConst || t.isWildcard) = true) →
    (shapes seen next ts).map Sum.getLeft? = ts.map (Term.value? ν)
  | [], _, _, _ => by simp [shapes]
  | .const c :: ts, seen, next, h => by
    rw [shapes_const, List.map_cons, List.map_cons,
      shapes_semiGrounded ν ts seen next (fun t ht => h t (List.mem_cons_of_mem _ ht))]
    rfl
  | .var v :: ts, seen, next, h => by
    have hv : v.wildcard = true := by simpa [Term.isConst, Term.isWildcard] using h (.var v) List.mem_cons_self
    rw [shapes_wildcard seen next hv, List.map_cons, List.map_cons, Term.value?_wildcard hv,
      shapes_semiGrounded ν ts seen (next + 1) (fun t ht => h t (List.mem_cons_of_mem _ ht))]
    rfl

/-- Without variables, literals of one variant have the same values. -/
theorem values_eq_of_variant_eq {l m : Literal W} (hl : l.isPlain = true) (hm : m.isPlain = true)
    (hgl : l.isSemiGrounded = true) (hgm : m.isSemiGrounded = true) (h : l.variant = m.variant) (ν μ : Valuation) :
    l.values ν = m.values μ := by
  rw [values, values, ← shapes_semiGrounded ν l.terms [] 0 (List.all_eq_true.1 hgl),
    ← shapes_semiGrounded μ m.terms [] 0 (List.all_eq_true.1 hgm)]
  exact congrArg _ (shape_eq_of_variant_eq hl hm h).2

theorem shapes_eq_of_idTerm : ∀ {ts us : List Term} (seen seen' : List (Var × Nat)) (next : Nat),
    (∀ t ∈ ts, (t.isConst || t.isWildcard) = true ∧ t.isPlain = true) →
    (∀ t ∈ us, (t.isConst || t.isWildcard) = true ∧ t.isPlain = true) → ts.map idTerm = us.map idTerm →
    shapes seen next ts = shapes seen' next us
  | [], [], _, _, _, _, _, _ => by simp [shapes]
  | .const c :: ts, u :: us, seen, seen', next, ht, hu, h => by
    simp only [List.map_cons, List.cons.injEq] at h
    rw [const_of_idTerm_eq (ht (.const c) List.mem_cons_self).2 h.1, shapes_const, shapes_const,
      shapes_eq_of_idTerm seen seen' next (fun t h' => ht t (List.mem_cons_of_mem _ h'))
        (fun t h' => hu t (List.mem_cons_of_mem _ h')) h.2]
  | .var v :: ts, .const c :: us, seen, seen', next, ht, hu, h => by
    simp only [List.map_cons, List.cons.injEq] at h
    cases const_of_idTerm_eq (hu (.const c) List.mem_cons_self).2 h.1.symm
  | .var v :: ts, .var w :: us, seen, seen', next, ht, hu, h => by
    have hv : v.wildcard = true := by
      simpa [Term.isConst, Term.isWildcard] using (ht (.var v) List.mem_cons_self).1
    have hw : w.wildcard = true := by
      simpa [Term.isConst, Term.isWildcard] using (hu (.var w) List.mem_cons_self).1
    simp only [List.map_cons, List.cons.injEq] at h
    rw [shapes_wildcard seen next hv, shapes_wildcard seen' next hw,
      shapes_eq_of_idTerm seen seen' (next + 1) (fun t h' => ht t (List.mem_cons_of_mem _ h'))
        (fun t h' => hu t (List.mem_cons_of_mem _ h')) h.2]

/-- Without variables, the values tell the variant. -/
theorem variant_eq_of_values_eq {l m : Literal W} (hl : l.isPlain = true) (hm : m.isPlain = true)
    (hgl : l.isSemiGrounded = true) (hgm : m.isSemiGrounded = true) (hp : l.predicate = m.predicate) {ν : Valuation}
    (hv : l.values ν = m.values ν) : l.variant = m.variant := by
  have key : ∀ ts : List Term, (∀ t ∈ ts, (t.isConst || t.isWildcard) = true) →
      ts.map idTerm = (ts.map (Term.value? ν)).map (fun x => (x.map Constant.printed).getD "_") := by
    intro ts hts
    rw [List.map_map]
    refine List.map_congr_left (fun t ht => ?_)
    cases t with
    | const c => rfl
    | var v =>
      have hw : v.wildcard = true := by simpa [Term.isConst, Term.isWildcard] using hts _ ht
      simp [idTerm, hw, Term.value?_wildcard hw]
  have hterms : l.terms.map idTerm = m.terms.map idTerm := by
    rw [key _ (List.all_eq_true.1 hgl), key _ (List.all_eq_true.1 hgm)]
    exact congrArg _ hv
  rw [variant_eq, variant_eq, name, name, hp, shape, shape, shapes_eq_of_idTerm [] [] 0
    (fun t ht => ⟨List.all_eq_true.1 hgl t ht, isPlain.terms hl t ht⟩)
    (fun t ht => ⟨List.all_eq_true.1 hgm t ht, isPlain.terms hm t ht⟩) hterms]

/-- Literals that share an id share the predicate. -/
theorem predicate_eq_of_id_eq [Weight W] {l m : Literal W} (hl : l.isPlain = true) (hm : m.isPlain = true)
    (h : l.id = m.id) : l.predicate = m.predicate := by
  have hf := (id_eq_iff hl hm).1 h
  simp only [form, Prod.mk.injEq] at hf
  obtain ⟨-, hname, hterms⟩ := hf
  have hlen : l.terms.length = m.terms.length := by simpa using congrArg List.length hterms
  have e1 := isWellFormed_iff.1 (isPlain.wellFormed hl)
  have e2 := isWellFormed_iff.1 (isPlain.wellFormed hm)
  rw [hlen, e2] at e1
  cases hpl : l.predicate
  cases hpm : m.predicate
  simp only [name, hpl, hpm] at hname e1
  rw [hname, e1]

/-- Without variables, literals that share an id share predicate and variant. -/
theorem variant_eq_of_id_eq [Weight W] {l m : Literal W} (hl : l.isPlain = true) (hm : m.isPlain = true)
    (hgl : l.isSemiGrounded = true) (hgm : m.isSemiGrounded = true) (h : l.id = m.id) :
    l.predicate = m.predicate ∧ l.variant = m.variant := by
  have hf := (id_eq_iff hl hm).1 h
  simp only [form, Prod.mk.injEq] at hf
  obtain ⟨-, hname, hterms⟩ := hf
  refine ⟨predicate_eq_of_id_eq hl hm h, ?_⟩
  rw [variant_eq, variant_eq, hname, shape, shape, shapes_eq_of_idTerm [] [] 0
    (fun t ht => ⟨List.all_eq_true.1 hgl t ht, isPlain.terms hl t ht⟩)
    (fun t ht => ⟨List.all_eq_true.1 hgm t ht, isPlain.terms hm t ht⟩) hterms]

end Literal
end Credence
