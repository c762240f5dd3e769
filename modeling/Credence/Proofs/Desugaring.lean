import Credence.Proofs.Flattening
import Credence.Proofs.Inlining
/-!
# Comparisons, assignments and nested calls

The literals of an item say what the item says.  Whatever satisfies them has the values of the direct evaluation in the
variables of the calls (`Grammar.Item.Flat.holds`), and what the evaluation finds can be put into these variables without
touching any other (`Grammar.Item.Flat.exists_valuation`).  Only the second half needs the variables to be new.
-/
namespace Credence

variable {W : Type} [Weight W]

/-- The values that the names have. -/
def Naming.Agrees (names : Naming) (σ : String → Constant) (ν : Valuation) : Prop := ∀ x v, names x = some v → ν v = σ x

/-- Every name has a variable of its own. -/
structure Naming.Faithful (names : Naming) : Prop where
  proper : ∀ x v, names x = some v → v.wildcard = false
  inj    : ∀ x y v, names x = some v → names y = some v → x = y

/-- Different variables without a name. -/
structure Spare (names : Naming) (fs : List Var) : Prop where
  proper  : ∀ v ∈ fs, v.wildcard = false
  unnamed : ∀ v ∈ fs, ∀ x, names x ≠ some v
  nodup   : fs.Nodup

/-- Wildcards apart, there are no variables but `fs` and those of names. -/
def Covered (names : Naming) (fs : List Var) (ts : List Term) : Prop := ∀ v, VarsOf ts v → v ∈ fs ∨ ∃ x, names x = some v

/-- Only the values of `fs` are changed. -/
def ChangesOnly (fs : List Var) (ν ν' : Valuation) : Prop := ∀ v, v ∉ fs → ν' v = ν v

theorem Scope.Sound.faithful {s : Scope} (h : s.Sound) : Naming.Faithful (fun x => s.names.lookup x) :=
  ⟨fun x v hx => (h.issued x v hx).1, h.inj⟩

theorem Scope.Grows.spare {s s' : Scope} {fs : List Var} (h : s.Grows s' fs) : Spare (fun x => s'.names.lookup x) fs :=
  ⟨fun v hv => (h.issued v hv).1, h.unnamed, h.nodup⟩

variable {names : Naming} {σ : String → Constant} {ν ν' ν'' : Valuation} {fs gs : List Var} {ts us : List Term}

theorem ChangesOnly.refl : ChangesOnly [] ν ν := fun _ _ => rfl

theorem ChangesOnly.trans (h : ChangesOnly fs ν ν') (h' : ChangesOnly gs ν' ν'') : ChangesOnly (fs ++ gs) ν ν'' := by
  intro v hv
  rw [h' v (fun hm => hv (List.mem_append_right _ hm)), h v (fun hm => hv (List.mem_append_left _ hm))]

theorem ChangesOnly.update (ν : Valuation) (v : Var) (c : Constant) : ChangesOnly [v] ν (Function.update ν v c) :=
  fun _ hw => Function.update_of_ne (fun e => hw (List.mem_singleton.2 e)) _ _

theorem Spare.left (h : Spare names (fs ++ gs)) : Spare names fs :=
  ⟨fun v hv => h.proper v (List.mem_append_left _ hv), fun v hv => h.unnamed v (List.mem_append_left _ hv),
    (List.nodup_append.1 h.nodup).1⟩

theorem Spare.right (h : Spare names (fs ++ gs)) : Spare names gs :=
  ⟨fun v hv => h.proper v (List.mem_append_right _ hv), fun v hv => h.unnamed v (List.mem_append_right _ hv),
    (List.nodup_append.1 h.nodup).2.1⟩

theorem Spare.swap (h : Spare names (fs ++ gs)) : Spare names (gs ++ fs) :=
  ⟨fun v hv => h.proper v (by simpa [or_comm] using hv), fun v hv => h.unnamed v (by simpa [or_comm] using hv),
    List.nodup_append_comm.1 h.nodup⟩

theorem Covered.mono (h : Covered names fs ts) (hsub : fs ⊆ gs) : Covered names gs ts :=
  fun v hv => (h v hv).imp_left (fun hv => hsub hv)

theorem Covered.cons {t : Term} (h : Covered names fs [t]) (h' : Covered names fs ts) : Covered names fs (t :: ts) := by
  rintro v ⟨hw, hv⟩
  rcases List.mem_cons.1 hv with rfl | hv
  · exact h v ⟨hw, List.mem_singleton.2 rfl⟩
  · exact h' v ⟨hw, hv⟩

theorem covered_nil : Covered names fs [] := fun _ hv => nomatch hv.2

theorem covered_var {v : Var} (h : v ∈ fs ∨ ∃ x, names x = some v) : Covered names fs [.var v] := by
  rintro u ⟨-, hu⟩
  cases List.mem_singleton.1 hu
  exact h

/-- What is covered by earlier variables does not have a later one. -/
theorem Covered.not_mem (h : Covered names fs ts) (hs : Spare names (fs ++ gs)) {v : Var} (hv : v ∈ gs) : .var v ∉ ts := by
  intro hm
  rcases h v ⟨hs.right.proper v hv, hm⟩ with hf | ⟨x, hx⟩
  · exact (List.nodup_append.1 hs.nodup).2.2 v hf v hv rfl
  · exact hs.right.unnamed v hv x hx

/-- Nor does it change with the values of later ones. -/
theorem Covered.map_value? (h : Covered names fs ts) (hs : Spare names (fs ++ gs)) (hν : ChangesOnly gs ν ν') :
    ts.map (Term.value? ν') = ts.map (Term.value? ν) :=
  (⟨0, ⟨"", 0⟩, ts⟩ : Literal Nat).values_congr (fun v hv => hν v (fun hg => h.not_mem hs hg hv.2))

theorem Naming.Agrees.frame (h : names.Agrees σ ν) (hs : Spare names fs) (hν : ChangesOnly fs ν ν') : names.Agrees σ ν' :=
  fun x v hx => (hν v (fun hv => hs.unnamed v hv x hx)).trans (h x v hx)

/-- Names with variables of their own can have any values. -/
theorem Naming.Faithful.exists_agrees (h : names.Faithful) (σ : String → Constant) : ∃ ν, names.Agrees σ ν := by
  classical
  refine ⟨fun v => if hv : ∃ x, names x = some v then σ hv.choose else ⟨""⟩, fun x v hx => ?_⟩
  have hex : ∃ y, names y = some v := ⟨x, hx⟩
  show (if hv : ∃ x, names x = some v then σ hv.choose else ⟨""⟩) = σ x
  rw [dif_pos hex, h.inj _ _ v hex.choose_spec hx]

/-! ## What the literals say -/

namespace Literal

variable {r : Registry} {atoms : String → List (Option Constant) → Prop}

theorem holdsIn_certain_iff {name : String} (h : Text.startsWith Predicate.negationMark name = false) :
    (certain name ts : Literal W).HoldsIn r atoms ν ↔ r.Says atoms name (ts.map (Term.value? ν)) := by
  have hneg : (certain name ts : Literal W).isNegated = false := h
  rw [HoldsIn, hneg]
  rfl

theorem holdsIn_call_iff {name : String} {v : Var} (hf : r.IsFunction name) (hv : v.wildcard = false) :
    (certain name (.var v :: ts) : Literal W).HoldsIn r atoms ν ↔ ν v ∈ r.resultsOf name (ts.map (Term.value? ν)) := by
  rw [holdsIn_certain_iff (Building.not_negated_of_isFunction hf)]
  obtain ⟨p, rfl, hk⟩ := hf
  rw [Registry.says_primitive_iff, List.map_cons, Term.value?_var hv, Registry.succeeds_function_iff hk,
    Registry.resultsOf_primitive]
  simp [Allows]

theorem holdsIn_identity_iff {v : Var} {u : Term} (hv : v.wildcard = false) :
    (certain "fn_identity" [.var v, u] : Literal W).HoldsIn r atoms ν ↔ u.value? ν = some (ν v) := by
  have hname : "fn_identity" = Predicate.primitiveMark ++ "identity" := rfl
  rw [holdsIn_certain_iff rfl, hname, Registry.says_primitive_iff, List.map_cons, Term.value?_var hv, List.map_cons,
    List.map_nil, Registry.succeeds_identity_iff]
  simp [Allows]

theorem holdsIn_atom_iff {negated : Bool} {name : String} (hname : Predicate.isName name = true) :
    (certain (Building.predicateName negated name) ts : Literal W).HoldsIn r atoms ν ↔
      if negated then ¬ atoms name (ts.map (Term.value? ν)) else r.Says atoms name (ts.map (Term.value? ν)) := by
  cases negated with
  | false => exact holdsIn_certain_iff (Predicate.isName.not_negated hname)
  | true =>
    have hneg : (certain (Building.predicateName true name) ts : Literal W).isNegated = true :=
      Text.startsWith_iff.2 ⟨name, rfl⟩
    have hbase : (certain (Building.predicateName true name) ts : Literal W).predicate.base = name :=
      Building.base_negated name ts.length
    rw [HoldsIn, hneg, hbase]
    rfl

theorem holdsIn_comparison_iff {sign : Grammar.Comparison} {flag : Var} {x y : Term} (hflag : flag.wildcard = false) :
    (certain (Building.comparison sign).1 [.var flag, x, y] : Literal W).HoldsIn r atoms ν ∧
      (certain (Building.comparison sign).2 [.var flag] : Literal W).HoldsIn r atoms ν ↔
      r.Says atoms (Building.comparison sign).1 [some (ν flag), x.value? ν, y.value? ν] ∧
        r.Says atoms (Building.comparison sign).2 [some (ν flag)] := by
  rw [holdsIn_certain_iff (Building.comparison_not_negated sign).1, holdsIn_certain_iff (Building.comparison_not_negated sign).2]
  simp only [List.map_cons, List.map_nil, Term.value?_var hflag]

omit [Weight W] in
/-- Later variables do not matter to a literal. -/
theorem HoldsIn.frame {l : Literal W} (h : l.HoldsIn r atoms ν) (hl : Covered names fs l.terms)
    (hs : Spare names (fs ++ gs)) (hν : ChangesOnly gs ν ν') : l.HoldsIn r atoms ν' :=
  (holdsIn_congr (hl.map_value? hs hν)).2 h

end Literal

namespace Grammar

variable {r : Registry} {atoms : String → List (Option Constant) → Prop}

theorem Lexeme.Stands.value? {t : Lexeme} {u : Term} (h : t.Stands names u) (hn : names.Faithful) (hν : names.Agrees σ ν) :
    u.value? ν = t.value? σ := by
  cases t with
  | named x =>
    obtain ⟨v, hv, rfl⟩ := h
    rw [Term.value?_var (hn.proper x v hv), hν x v hv, Lexeme.value?]
  | wildcard =>
    cases u with
    | const c => cases h
    | var v => exact Term.value?_wildcard h ν
  | quoted | number | word =>
    cases h
    rfl

theorem Lexeme.Stands.covered {t : Lexeme} {u : Term} (h : t.Stands names u) : Covered names fs [u] := by
  rintro v ⟨hw, hv⟩
  cases List.mem_singleton.1 hv
  cases t with
  | named x =>
    obtain ⟨w, hx, e⟩ := h
    cases e
    exact .inr ⟨x, hx⟩
  | wildcard => exact absurd (hw.symm.trans h) (by simp)
  | quoted | number | word => cases h

mutual

/-- The variables of an operand's literals. -/
theorem Operand.Flat.covered : ∀ {a : Operand} {u : Term} {ls : List (Literal W)} {fs : List Var}, a.Flat names u ls fs →
    Covered names fs [u] ∧ ∀ l ∈ ls, Covered names fs l.terms
  | .term _, _, _, _, .term h => ⟨h.covered, fun _ hl => nomatch hl⟩
  | .call _ _, _, _, _, .call h => by
    obtain ⟨hins, hsteps⟩ := Operand.AllFlat.covered h
    refine ⟨covered_var (.inl (by simp)), fun l hl => ?_⟩
    rcases List.mem_append.1 hl with hl | hl
    · exact (hsteps l hl).mono (List.subset_append_left _ _)
    · cases List.mem_singleton.1 hl
      exact (covered_var (.inl (by simp))).cons (hins.mono (List.subset_append_left _ _))

theorem Operand.AllFlat.covered : ∀ {as : List Operand} {us : List Term} {ls : List (Literal W)} {fs : List Var},
    Operand.AllFlat names as us ls fs → Covered names fs us ∧ ∀ l ∈ ls, Covered names fs l.terms
  | [], _, _, _, .nil => ⟨covered_nil, fun _ hl => nomatch hl⟩
  | _ :: _, _, _, _, .cons h h' => by
    obtain ⟨hu, hfirst⟩ := Operand.Flat.covered h
    obtain ⟨hus, hrest⟩ := Operand.AllFlat.covered h'
    refine ⟨(hu.mono (List.subset_append_left _ _)).cons (hus.mono (List.subset_append_right _ _)), fun l hl => ?_⟩
    rcases List.mem_append.1 hl with hl | hl
    · exact (hfirst l hl).mono (List.subset_append_left _ _)
    · exact (hrest l hl).mono (List.subset_append_right _ _)

end

mutual

/-- **The literals of an operand leave it no other value.** -/
theorem Operand.Flat.value_mem (hn : names.Faithful) (hν : names.Agrees σ ν) :
    ∀ {a : Operand} {u : Term} {ls : List (Literal W)} {fs : List Var}, a.Flat names u ls fs → a.CallsFunctions r →
      (∀ v ∈ fs, v.wildcard = false) → (∀ l ∈ ls, l.HoldsIn r atoms ν) → u.value? ν ∈ a.values r σ
  | .term _, _, _, _, .term h, _, _, _ => by
    rw [h.value? hn hν, Operand.values]
    exact List.mem_singleton.2 rfl
  | .call _ _, _, _, _, .call (v := v) h, hc, hw, hls => by
    rw [Operand.CallsFunctions] at hc
    have hargs := Operand.AllFlat.values_mem hn hν h hc.2 (fun v hv => hw v (List.mem_append_left _ hv))
      (fun l hl => hls l (List.mem_append_left _ hl))
    have hv : v.wildcard = false := hw v (by simp)
    have hcall := (Literal.holdsIn_call_iff hc.1 hv).1 (hls _ (List.mem_append_right _ (List.mem_singleton.2 rfl)))
    exact Operand.mem_values_call.2 ⟨_, hargs, _, hcall, (Term.value?_var hv ν).symm⟩

theorem Operand.AllFlat.values_mem (hn : names.Faithful) (hν : names.Agrees σ ν) :
    ∀ {as : List Operand} {us : List Term} {ls : List (Literal W)} {fs : List Var}, Operand.AllFlat names as us ls fs →
      Operand.AllCallFunctions r as → (∀ v ∈ fs, v.wildcard = false) → (∀ l ∈ ls, l.HoldsIn r atoms ν) →
      us.map (Term.value? ν) ∈ Operand.valuesAll r σ as
  | [], _, _, _, .nil, _, _, _ => by
    rw [Operand.valuesAll]
    exact List.mem_singleton.2 rfl
  | _ :: _, _, _, _, .cons h h', hc, hw, hls => by
    rw [Operand.AllCallFunctions] at hc
    have hu := Operand.Flat.value_mem hn hν h hc.1 (fun v hv => hw v (List.mem_append_left _ hv))
      (fun l hl => hls l (List.mem_append_left _ hl))
    have hus := Operand.AllFlat.values_mem hn hν h' hc.2 (fun v hv => hw v (List.mem_append_right _ hv))
      (fun l hl => hls l (List.mem_append_right _ hl))
    exact Operand.mem_valuesAll_cons.2 ⟨_, hu, _, hus, rfl⟩

end

mutual

/-- **Each value of an operand is there for some values of the variables of its calls.** -/
theorem Operand.Flat.exists_valuation (hn : names.Faithful) : ∀ {a : Operand} {u : Term} {ls : List (Literal W)}
    {fs : List Var} {ν : Valuation}, a.Flat names u ls fs → a.CallsFunctions r → Spare names fs → names.Agrees σ ν →
    ∀ c ∈ a.values r σ, ∃ ν', ChangesOnly fs ν ν' ∧ u.value? ν' = c ∧ ∀ l ∈ ls, l.HoldsIn r atoms ν'
  | .term _, _, _, _, ν, .term h, _, _, hν => by
    intro c hc
    rw [Operand.values, List.mem_singleton] at hc
    exact ⟨ν, .refl, (h.value? hn hν).trans hc.symm, fun _ hl => nomatch hl⟩
  | .call name _, _, _, _, ν, .call (v := v) h, hc, hs, hν => by
    intro c hm
    rw [Operand.CallsFunctions] at hc
    obtain ⟨vs, hvs, c, hres, rfl⟩ := Operand.mem_values_call.1 hm
    obtain ⟨ν₁, hν₁, rfl, hsteps⟩ := Operand.AllFlat.exists_valuation hn h hc.2 hs.left hν vs hvs
    obtain ⟨hins, hcov⟩ := Operand.AllFlat.covered h
    have hv : v.wildcard = false := hs.right.proper v (List.mem_singleton.2 rfl)
    -- the variable of the call is new to what computes its arguments
    let ν₂ : Valuation := Function.update ν₁ v c
    have hother : ChangesOnly [v] ν₁ ν₂ := .update ν₁ v c
    have hself : ν₂ v = c := Function.update_self _ _ _
    refine ⟨ν₂, hν₁.trans hother, ?_, fun l hl => ?_⟩
    · rw [Term.value?_var hv, hself]
    · rcases List.mem_append.1 hl with hl | hl
      · exact (hsteps l hl).frame (hcov l hl) hs hother
      · cases List.mem_singleton.1 hl
        rw [Literal.holdsIn_call_iff hc.1 hv, hself, hins.map_value? hs hother]
        exact hres

theorem Operand.AllFlat.exists_valuation (hn : names.Faithful) : ∀ {as : List Operand} {us : List Term}
    {ls : List (Literal W)} {fs : List Var} {ν : Valuation}, Operand.AllFlat names as us ls fs →
    Operand.AllCallFunctions r as → Spare names fs → names.Agrees σ ν →
    ∀ vs ∈ Operand.valuesAll r σ as, ∃ ν', ChangesOnly fs ν ν' ∧ us.map (Term.value? ν') = vs ∧
      ∀ l ∈ ls, l.HoldsIn r atoms ν'
  | [], _, _, _, ν, .nil, _, _, _ => by
    intro vs hvs
    rw [Operand.valuesAll, List.mem_singleton] at hvs
    exact ⟨ν, .refl, hvs.symm, fun _ hl => nomatch hl⟩
  | _ :: _, _, _, _, ν, .cons (t := t) h h', hc, hs, hν => by
    intro vs hvs
    rw [Operand.AllCallFunctions] at hc
    obtain ⟨c, hc₁, cs, hcs, rfl⟩ := Operand.mem_valuesAll_cons.1 hvs
    obtain ⟨ν₁, hν₁, rfl, hfirst⟩ := Operand.Flat.exists_valuation hn h hc.1 hs.left hν c hc₁
    obtain ⟨ν₂, hν₂, rfl, hrest⟩ := Operand.AllFlat.exists_valuation hn h' hc.2 hs.right (hν.frame hs.left hν₁) cs hcs
    obtain ⟨ht, hcov⟩ := Operand.Flat.covered h
    have hvalue : t.value? ν₂ = t.value? ν₁ := by simpa using ht.map_value? hs hν₂
    refine ⟨ν₂, hν₁.trans hν₂, by rw [List.map_cons, hvalue], fun l hl => ?_⟩
    rcases List.mem_append.1 hl with hl | hl
    · exact (hfirst l hl).frame (hcov l hl) hs hν₂
    · exact hrest l hl

end

/-! ## Items -/

/-- The variables of an item's literals. -/
theorem Item.Flat.covered {i : Item} {ls : List (Literal W)} (h : i.Flat names ls fs) : ∀ l ∈ ls, Covered names fs l.terms := by
  cases h with
  | assignTerm hv hu =>
    intro l hl
    cases List.mem_singleton.1 hl
    exact (covered_var (.inr ⟨_, hv⟩)).cons hu.covered
  | assignCall hv hargs =>
    obtain ⟨hins, hsteps⟩ := hargs.covered
    intro l hl
    rcases List.mem_append.1 hl with hl | hl
    · exact hsteps l hl
    · cases List.mem_singleton.1 hl
      exact (covered_var (.inr ⟨_, hv⟩)).cons hins
  | comparison hargs =>
    obtain ⟨hxy, hsteps⟩ := hargs.covered
    intro l hl
    simp only [List.mem_append, List.mem_cons, List.not_mem_nil, or_false] at hl
    rcases hl with hl | rfl | rfl
    · exact (hsteps l hl).mono (List.subset_append_left _ _)
    · exact (covered_var (.inl (by simp))).cons (hxy.mono (List.subset_append_left _ _))
    · exact covered_var (.inl (by simp))
  | atom hargs =>
    obtain ⟨hts, hsteps⟩ := hargs.covered
    intro l hl
    rcases List.mem_append.1 hl with hl | hl
    · exact hsteps l hl
    · cases List.mem_singleton.1 hl
      exact hts

/-- **What satisfies the literals of an item satisfies the item.** -/
theorem Item.Flat.holds {i : Item} {ls : List (Literal W)} (h : i.Flat names ls fs) (hi : i.IsSpelled) (hc : i.IsLegal r)
    (hn : names.Faithful) (hν : names.Agrees σ ν) (hw : ∀ v ∈ fs, v.wildcard = false)
    (hls : ∀ l ∈ ls, l.HoldsIn r atoms ν) : i.Holds r atoms σ := by
  cases h with
  | assignTerm hv hu =>
    have hvalue := (Literal.holdsIn_identity_iff (hn.proper _ _ hv)).1 (hls _ (List.mem_singleton.2 rfl))
    rw [hu.value? hn hν, hν _ _ hv] at hvalue
    rw [Item.Holds, Operand.values, hvalue]
    exact List.mem_singleton.2 rfl
  | assignCall hv hargs =>
    rw [Item.IsLegal, Operand.CallsFunctions] at hc
    have hins := hargs.values_mem hn hν hc.2 hw (fun l hl => hls l (List.mem_append_left _ hl))
    have hcall := (Literal.holdsIn_call_iff hc.1 (hn.proper _ _ hv)).1
      (hls _ (List.mem_append_right _ (List.mem_singleton.2 rfl)))
    exact Operand.mem_values_call.2 ⟨_, hins, _, hcall, by rw [hν _ _ hv]⟩
  | @comparison left right sign x y steps fs flag hargs =>
    have hcalls : Operand.AllCallFunctions r [left, right] := ⟨hc.1, hc.2, trivial⟩
    have hxy := hargs.values_mem hn hν hcalls (fun v hv => hw v (by simp [hv]))
      (fun l hl => hls l (by simp [hl]))
    obtain ⟨hx, hy⟩ := Operand.mem_valuesAll_pair.1 hxy
    have hpair := (Literal.holdsIn_comparison_iff (hw flag (by simp))).1
      ⟨hls (.certain (Building.comparison sign).1 [.var flag, x, y]) (by simp),
        hls (.certain (Building.comparison sign).2 [.var flag]) (by simp)⟩
    obtain ⟨a, b, ha, hb, hadmits⟩ := (Registry.says_comparison_iff sign).1 ⟨_, hpair⟩
    exact ⟨a, b, ha ▸ hx, hb ▸ hy, hadmits⟩
  | atom hargs =>
    have hts := hargs.values_mem hn hν hc.2 hw (fun l hl => hls l (List.mem_append_left _ hl))
    exact ⟨_, hts, (Literal.holdsIn_atom_iff hi.1).1 (hls _ (List.mem_append_right _ (List.mem_singleton.2 rfl)))⟩

/-- **What satisfies an item satisfies its literals for some values of the variables drawn for it.** -/
theorem Item.Flat.exists_valuation {i : Item} {ls : List (Literal W)} (h : i.Flat names ls fs) (hi : i.IsSpelled)
    (hc : i.IsLegal r) (hn : names.Faithful) (hs : Spare names fs) (hν : names.Agrees σ ν) (hholds : i.Holds r atoms σ) :
    ∃ ν', ChangesOnly fs ν ν' ∧ ∀ l ∈ ls, l.HoldsIn r atoms ν' := by
  cases h with
  | assignTerm hv hu =>
    rw [Item.Holds, Operand.values, List.mem_singleton] at hholds
    refine ⟨ν, .refl, fun l hl => ?_⟩
    cases List.mem_singleton.1 hl
    rw [Literal.holdsIn_identity_iff (hn.proper _ _ hv), hu.value? hn hν, hν _ _ hv, hholds]
  | assignCall hv hargs =>
    rw [Item.IsLegal, Operand.CallsFunctions] at hc
    obtain ⟨vs, hvs, c, hres, e⟩ := Operand.mem_values_call.1 hholds
    obtain ⟨ν', hν', rfl, hsteps⟩ := hargs.exists_valuation hn hc.2 hs hν vs hvs
    refine ⟨ν', hν', fun l hl => ?_⟩
    rcases List.mem_append.1 hl with hl | hl
    · exact hsteps l hl
    · cases List.mem_singleton.1 hl
      cases e
      rw [Literal.holdsIn_call_iff hc.1 (hn.proper _ _ hv), hν.frame hs hν' _ _ hv]
      exact hres
  | @comparison left right sign x y steps fs flag hargs =>
    obtain ⟨a, b, ha, hb, hadmits⟩ := hholds
    have hcalls : Operand.AllCallFunctions r [left, right] := ⟨hc.1, hc.2, trivial⟩
    obtain ⟨ν₁, hν₁, hxy, hsteps⟩ := hargs.exists_valuation hn hcalls hs.left hν _ (Operand.mem_valuesAll_pair.2 ⟨ha, hb⟩)
    obtain ⟨hxyc, hstepsc⟩ := hargs.covered
    have hflag : ∃ c, r.Says atoms (Building.comparison sign).1 [some c, some a, some b] ∧
        r.Says atoms (Building.comparison sign).2 [some c] :=
      (Registry.says_comparison_iff sign).2 ⟨a, b, rfl, rfl, hadmits⟩
    obtain ⟨c, hsays⟩ := hflag
    let ν₂ : Valuation := Function.update ν₁ flag c
    have hother : ChangesOnly [flag] ν₁ ν₂ := .update ν₁ flag c
    have hself : ν₂ flag = c := Function.update_self _ _ _
    have hpair : (Literal.certain (Building.comparison sign).1 [.var flag, x, y] : Literal W).HoldsIn r atoms ν₂ ∧
        (Literal.certain (Building.comparison sign).2 [.var flag] : Literal W).HoldsIn r atoms ν₂ := by
      rw [← hxyc.map_value? hs hother, List.map_cons, List.map_cons, List.map_nil, List.cons.injEq, List.cons.injEq] at hxy
      rw [Literal.holdsIn_comparison_iff (hs.right.proper flag (by simp)), hself, hxy.1, hxy.2.1]
      exact hsays
    refine ⟨ν₂, hν₁.trans hother, fun l hl => ?_⟩
    simp only [List.mem_append, List.mem_cons, List.not_mem_nil, or_false] at hl
    rcases hl with hl | rfl | rfl
    · exact (hsteps l hl).frame (hstepsc l hl) hs hother
    · exact hpair.1
    · exact hpair.2
  | atom hargs =>
    obtain ⟨vs, hvs, hsays⟩ := hholds
    obtain ⟨ν', hν', rfl, hsteps⟩ := hargs.exists_valuation hn hc.2 hs hν vs hvs
    refine ⟨ν', hν', fun l hl => ?_⟩
    rcases List.mem_append.1 hl with hl | hl
    · exact hsteps l hl
    · cases List.mem_singleton.1 hl
      exact (Literal.holdsIn_atom_iff hi.1).2 hsays

/-! ## Bodies -/

theorem Item.AllFlat.covered {is : List Item} {ls : List (Literal W)} (h : Item.AllFlat names is ls fs) :
    ∀ l ∈ ls, Covered names fs l.terms := by
  induction h with
  | nil => exact fun _ hl => nomatch hl
  | cons hi _ ih =>
    intro l hl
    rcases List.mem_append.1 hl with hl | hl
    · exact (hi.covered l hl).mono (List.subset_append_left _ _)
    · exact (ih l hl).mono (List.subset_append_right _ _)

theorem Item.AllFlat.holds {is : List Item} {ls : List (Literal W)} (h : Item.AllFlat names is ls fs)
    (his : ∀ i ∈ is, i.IsSpelled ∧ i.IsLegal r) (hn : names.Faithful) (hν : names.Agrees σ ν) (hs : Spare names fs)
    (hls : ∀ l ∈ ls, l.HoldsIn r atoms ν) : ∀ i ∈ is, i.Holds r atoms σ := by
  induction h with
  | nil => exact fun _ hi => nomatch hi
  | cons hi _ ih =>
    obtain ⟨⟨hspelled, hlegal⟩, his⟩ := List.forall_mem_cons.1 his
    refine List.forall_mem_cons.2 ⟨?_, ih his hs.right (fun l hl => hls l (List.mem_append_right _ hl))⟩
    exact hi.holds hspelled hlegal hn hν hs.left.proper (fun l hl => hls l (List.mem_append_left _ hl))

theorem Item.AllFlat.exists_valuation {is : List Item} {ls : List (Literal W)} (h : Item.AllFlat names is ls fs)
    (his : ∀ i ∈ is, i.IsSpelled ∧ i.IsLegal r) (hn : names.Faithful) (hν : names.Agrees σ ν) (hs : Spare names fs)
    (hholds : ∀ i ∈ is, i.Holds r atoms σ) :
    ∃ ν', ChangesOnly fs ν ν' ∧ ∀ l ∈ ls, l.HoldsIn r atoms ν' := by
  induction h generalizing ν with
  | nil => exact ⟨ν, .refl, fun _ hl => nomatch hl⟩
  | cons hi _ ih =>
    obtain ⟨⟨hspelled, hlegal⟩, his⟩ := List.forall_mem_cons.1 his
    obtain ⟨hfirst, hrest⟩ := List.forall_mem_cons.1 hholds
    obtain ⟨ν₁, hν₁, hls⟩ := hi.exists_valuation hspelled hlegal hn hs.left hν hfirst
    obtain ⟨ν₂, hν₂, hms⟩ := ih his (hν.frame hs.left hν₁) hs.right hrest
    refine ⟨ν₂, hν₁.trans hν₂, fun l hl => ?_⟩
    rcases List.mem_append.1 hl with hl | hl
    · exact (hls l hl).frame (hi.covered l hl) hs hν₂
    · exact hms l hl

/-- **A body can be satisfied, for some values of the names, when each of its items holds of them.** -/
theorem Item.AllFlat.satisfiable_iff {is : List Item} {ls : List (Literal W)} (h : Item.AllFlat names is ls fs)
    (his : ∀ i ∈ is, i.IsSpelled ∧ i.IsLegal r) (hn : names.Faithful) (hs : Spare names fs) :
    (∃ ν, names.Agrees σ ν ∧ ∀ l ∈ ls, l.HoldsIn r atoms ν) ↔ ∀ i ∈ is, i.Holds r atoms σ := by
  constructor
  · rintro ⟨ν, hν, hls⟩
    exact h.holds his hn hν hs hls
  · intro hholds
    obtain ⟨ν, hν⟩ := hn.exists_agrees σ
    obtain ⟨ν', hν', hls⟩ := h.exists_valuation his hn hν hs hholds
    exact ⟨ν', hν.frame hs hν', hls⟩

end Grammar
end Credence
