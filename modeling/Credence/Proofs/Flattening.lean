import Credence.Proofs.Meaning
/-!
# The literals of a body

What the builder makes of an item, without the pool that its variables come from.  A name stands for one variable; a call
becomes a literal behind those of its arguments, with a variable of its own in front (`Grammar.Operand.Flat`,
`Grammar.Item.Flat`).  The builder gives these literals from every scope, and draws for the calls variables that are new
and that no name gets later (`Building.builds_item`, `Scope.Grows`).
-/
namespace Credence

variable {W : Type} [Weight W]

/-- The variables that names stand for. -/
abbrev Naming := String → Option Var

/-- The literal that a name makes, certain and unchecked. -/
def Literal.certain (name : String) (ts : List Term) : Literal W := ⟨1, ⟨name, ts.length⟩, ts⟩

namespace Grammar

def Lexeme.Stands (names : Naming) : Lexeme → Term → Prop
  | .quoted inner, t => t = .const (.ofText (Text.unescape inner))
  | .number s,     t => t = .const ⟨s⟩
  | .named x,      t => ∃ v, names x = some v ∧ t = .var v
  | .wildcard,     t => t.isWildcard = true
  | .word s,       t => t = .const ⟨s⟩

mutual

/-- The term that holds an operand's value, the literals that compute it and the variables of its calls, in their order. -/
inductive Operand.Flat (names : Naming) : Operand → Term → List (Literal W) → List Var → Prop
  | term {t : Lexeme} {u : Term} : t.Stands names u → Flat names (.term t) u [] []
  | call {name : String} {args : List Operand} {ins : List Term} {steps : List (Literal W)} {fs : List Var} {v : Var} :
    Operand.AllFlat names args ins steps fs →
    Flat names (.call name args) (.var v) (steps ++ [.certain name (.var v :: ins)]) (fs ++ [v])

inductive Operand.AllFlat (names : Naming) : List Operand → List Term → List (Literal W) → List Var → Prop
  | nil : AllFlat names [] [] [] []
  | cons {a : Operand} {as : List Operand} {t : Term} {ts : List Term} {first rest : List (Literal W)} {fs gs : List Var} :
    Operand.Flat names a t first fs → AllFlat names as ts rest gs →
    AllFlat names (a :: as) (t :: ts) (first ++ rest) (fs ++ gs)

end

inductive Item.Flat (names : Naming) : Item → List (Literal W) → List Var → Prop
  | assignTerm {target : String} {t : Lexeme} {v : Var} {u : Term} : names target = some v → t.Stands names u →
    Flat names (.assignment target (.term t)) [.certain "fn_identity" [.var v, u]] []
  | assignCall {target name : String} {args : List Operand} {v : Var} {ins : List Term} {steps : List (Literal W)}
    {fs : List Var} : names target = some v → Operand.AllFlat names args ins steps fs →
    Flat names (.assignment target (.call name args)) (steps ++ [.certain name (.var v :: ins)]) fs
  | comparison {left right : Operand} {sign : Comparison} {x y : Term} {steps : List (Literal W)} {fs : List Var}
    {flag : Var} : Operand.AllFlat names [left, right] [x, y] steps fs →
    Flat names (.comparison left sign right)
      (steps ++ [.certain (Building.comparison sign).1 [.var flag, x, y],
        .certain (Building.comparison sign).2 [.var flag]]) (fs ++ [flag])
  | atom {negated : Bool} {name : String} {args : List Operand} {ts : List Term} {steps : List (Literal W)}
    {fs : List Var} : Operand.AllFlat names args ts steps fs →
    Flat names (.atom negated name args) (steps ++ [.certain (Building.predicateName negated name) ts]) fs

/-- The literals of one item after those of another. -/
inductive Item.AllFlat (names : Naming) : List Item → List (Literal W) → List Var → Prop
  | nil : AllFlat names [] [] []
  | cons {i : Item} {is : List Item} {first rest : List (Literal W)} {fs gs : List Var} :
    i.Flat names first fs → AllFlat names is rest gs → AllFlat names (i :: is) (first ++ rest) (fs ++ gs)

end Grammar

/-! ## Scopes -/

namespace Scope

/-- Every name has a variable of its own, and none that is still to come. -/
structure Sound (s : Scope) : Prop where
  issued : ∀ x v, s.names.lookup x = some v → v.wildcard = false ∧ v.id < s.pool.issued
  inj    : ∀ x y v, s.names.lookup x = some v → s.names.lookup y = some v → x = y

/-- From `s` to `s'` names keep their variables, new names get new ones, and `fs` are new variables without a name. -/
structure Grows (s s' : Scope) (fs : List Var) : Prop where
  sound   : s'.Sound
  pool    : s.pool.issued ≤ s'.pool.issued
  kept    : ∀ x v, s.names.lookup x = some v → s'.names.lookup x = some v
  later   : ∀ x v, s'.names.lookup x = some v → s.names.lookup x = some v ∨ s.pool.issued ≤ v.id
  issued  : ∀ v ∈ fs, v.wildcard = false ∧ s.pool.issued ≤ v.id ∧ v.id < s'.pool.issued
  unnamed : ∀ v ∈ fs, ∀ x, s'.names.lookup x ≠ some v
  nodup   : fs.Nodup

variable {s s' s'' : Scope} {fs gs : List Var}

theorem sound_start (pool : VarPool) : (⟨pool, []⟩ : Scope).Sound := ⟨(fun _ _ h => nomatch h), fun _ _ _ h => nomatch h⟩

theorem Grows.refl (h : s.Sound) : s.Grows s [] :=
  ⟨h, Nat.le_refl _, fun _ _ h => h, fun _ _ h => .inl h, (fun _ hv => nomatch hv), (fun _ hv => nomatch hv), .nil⟩

theorem Grows.trans (h : s.Grows s' fs) (h' : s'.Grows s'' gs) : s.Grows s'' (fs ++ gs) where
  sound   := h'.sound
  pool    := h.pool.trans h'.pool
  kept    := fun x v hx => h'.kept x v (h.kept x v hx)
  later   := fun x v hx => (h'.later x v hx).elim (h.later x v) (fun hv => .inr (h.pool.trans hv))
  issued  := by
    intro v hv
    have h1 := h.pool
    have h2 := h'.pool
    rcases List.mem_append.1 hv with hv | hv
    · exact ⟨(h.issued v hv).1, (h.issued v hv).2.1, (h.issued v hv).2.2.trans_le h2⟩
    · exact ⟨(h'.issued v hv).1, h1.trans (h'.issued v hv).2.1, (h'.issued v hv).2.2⟩
  unnamed := by
    intro v hv x hx
    rcases List.mem_append.1 hv with hv | hv
    · -- a name that came later has a variable that came later
      rcases h'.later x v hx with hx | hid
      · exact h.unnamed v hv x hx
      · exact absurd (h.issued v hv).2.2 (Nat.not_lt.2 hid)
    · exact h'.unnamed v hv x hx
  nodup   := List.nodup_append.2 ⟨h.nodup, h'.nodup, fun v hv w hw e =>
    absurd (h.issued v hv).2.2 (Nat.not_lt.2 (e ▸ (h'.issued w hw).2.1))⟩

end Scope

namespace Building

variable {α β : Type}

/-- From every sound scope there is a result.  It is as `P` says of the variables drawn for calls, for these names and
whatever names come later. -/
def Builds (m : Building α) (P : Naming → α → List Var → Prop) : Prop :=
  ∀ s : Scope, s.Sound → ∃ x s' fs, m s = .ok (x, s') ∧ s.Grows s' fs ∧
    ∀ names : Naming, (∀ y v, s'.names.lookup y = some v → names y = some v) → P names x fs

variable {P P' : Naming → α → List Var → Prop} {Q : α → Naming → β → List Var → Prop}

theorem Builds.mono {m : Building α} (h : Builds m P) (hP : ∀ names x fs, P names x fs → P' names x fs) : Builds m P' := by
  intro s hs
  obtain ⟨x, s', fs, hm, hg, hx⟩ := h s hs
  exact ⟨x, s', fs, hm, hg, fun names hn => hP _ _ _ (hx names hn)⟩

theorem Builds.pure (x : α) : Builds (Pure.pure x) (fun _ y fs => y = x ∧ fs = []) :=
  fun s hs => ⟨x, s, [], rfl, .refl hs, fun _ _ => ⟨rfl, rfl⟩⟩

theorem Builds.bind {m : Building α} {f : α → Building β} (h : Builds m P) (hf : ∀ x, Builds (f x) (Q x)) :
    Builds (m >>= f) (fun names y hs => ∃ x fs gs, P names x fs ∧ Q x names y gs ∧ hs = fs ++ gs) := by
  intro s hs
  obtain ⟨x, s₁, fs, hm, hg, hx⟩ := h s hs
  obtain ⟨y, s₂, gs, hfx, hg', hy⟩ := hf x s₁ hg.sound
  refine ⟨y, s₂, fs ++ gs, bind_eq_ok_iff.2 ⟨x, s₁, hm, hfx⟩, hg.trans hg', fun names hn => ?_⟩
  exact ⟨x, fs, gs, hx names (fun z v hz => hn z v (hg'.kept z v hz)), hy names hn, rfl⟩

/-- A last step that draws no variable. -/
theorem Builds.map {m : Building α} {f : α → Building β} {g : α → β} (h : Builds m P) (hf : ∀ x s, f x s = .ok (g x, s)) :
    Builds (m >>= f) (fun names y fs => ∃ x, P names x fs ∧ y = g x) := by
  intro s hs
  obtain ⟨x, s', fs, hm, hg, hx⟩ := h s hs
  exact ⟨g x, s', fs, bind_eq_ok_iff.2 ⟨x, s', hm, hf x s'⟩, hg, fun names hn => ⟨x, hx names hn, rfl⟩⟩

theorem builds_fresh : Builds fresh (fun _ t fs => ∃ v, t = .var v ∧ fs = [v]) := by
  intro s hs
  refine ⟨_, _, [⟨s.pool.issued, false⟩], rfl, ⟨⟨fun x v hx => ?_, hs.inj⟩, Nat.le_succ _, fun _ _ h => h, fun _ _ h => .inl h,
    fun v hv => ?_, fun v hv x hx => ?_, List.nodup_singleton _⟩, fun _ _ => ⟨_, rfl, rfl⟩⟩
  · exact ⟨(hs.issued x v hx).1, Nat.lt_succ_of_lt (hs.issued x v hx).2⟩
  · rw [List.mem_singleton.1 hv]
    exact ⟨rfl, Nat.le_refl _, Nat.lt_succ_self _⟩
  · rw [List.mem_singleton.1 hv] at hx
    exact absurd (hs.issued x _ hx).2 (Nat.lt_irrefl _)

theorem builds_wildcard : Builds wildcard (fun _ t fs => t.isWildcard = true ∧ fs = []) := by
  intro s hs
  refine ⟨_, _, [], rfl, ⟨⟨fun x v hx => ?_, hs.inj⟩, Nat.le_succ _, fun _ _ h => h, fun _ _ h => .inl h,
    (fun _ hv => nomatch hv), (fun _ hv => nomatch hv), .nil⟩, fun _ _ => ⟨rfl, rfl⟩⟩
  exact ⟨(hs.issued x v hx).1, Nat.lt_succ_of_lt (hs.issued x v hx).2⟩

/-- A name that is new takes the next variable of the pool. -/
theorem grows_cons {s : Scope} (hs : s.Sound) {name : String} (hnew : s.names.lookup name = none) :
    s.Grows ⟨⟨s.pool.issued + 1⟩, (name, ⟨s.pool.issued, false⟩) :: s.names⟩ [] := by
  have hlookup : ∀ x v, ((name, (⟨s.pool.issued, false⟩ : Var)) :: s.names).lookup x = some v ↔
      x = name ∧ v = ⟨s.pool.issued, false⟩ ∨ x ≠ name ∧ s.names.lookup x = some v := by
    intro x v
    by_cases e : x = name
    · simp [e, eq_comm]
    · simp [List.lookup_cons, beq_false_of_ne e, e]
  refine ⟨⟨fun x v hx => ?_, fun x y v hx hy => ?_⟩, Nat.le_succ _, fun x v hx => ?_, fun x v hx => ?_,
    (fun _ hv => nomatch hv), (fun _ hv => nomatch hv), .nil⟩
  · rcases (hlookup x v).1 hx with ⟨-, rfl⟩ | ⟨-, hx⟩
    · exact ⟨rfl, Nat.lt_succ_self _⟩
    · exact ⟨(hs.issued x v hx).1, Nat.lt_succ_of_lt (hs.issued x v hx).2⟩
  · rcases (hlookup x v).1 hx with ⟨ex, rfl⟩ | ⟨-, hx⟩ <;> rcases (hlookup y _).1 hy with ⟨ey, e⟩ | ⟨-, hy⟩
    · exact ex.trans ey.symm
    · exact absurd (hs.issued y _ hy).2 (Nat.lt_irrefl _)
    · exact absurd (e ▸ (hs.issued x v hx).2) (Nat.lt_irrefl _)
    · exact hs.inj x y v hx hy
  · exact (hlookup x v).2 (.inr ⟨fun e => (by rw [e, hnew] at hx; cases hx), hx⟩)
  · rcases (hlookup x v).1 hx with ⟨-, rfl⟩ | ⟨-, hx⟩
    · exact .inr (Nat.le_refl _)
    · exact .inl hx

theorem builds_named (name : String) :
    Builds (named name) (fun names t fs => (∃ v, names name = some v ∧ t = .var v) ∧ fs = []) := by
  intro s hs
  cases h : s.names.lookup name with
  | some v =>
    refine ⟨.var v, s, [], ?_, .refl hs, fun names hn => ⟨⟨v, hn name v h, rfl⟩, rfl⟩⟩
    simp [named, h]
  | none =>
    refine ⟨_, _, [], ?_, grows_cons hs h, fun names hn => ⟨⟨_, hn name _ List.lookup_cons_self, rfl⟩, rfl⟩⟩
    simp [named, h, VarPool.fresh]

theorem builds_term (t : Grammar.Lexeme) : Builds (term t) (fun names u fs => t.Stands names u ∧ fs = []) := by
  cases t with
  | quoted inner => exact .pure _
  | number s => exact .pure _
  | named name => exact builds_named name
  | wildcard => exact builds_wildcard
  | word s => exact .pure _

theorem builds_terms : ∀ ts : List Grammar.Lexeme,
    Builds (terms ts) (fun names us fs => List.Forall₂ (fun t u => t.Stands names u) ts us ∧ fs = [])
  | [] => (Builds.pure []).mono (fun _ us fs ⟨hus, hfs⟩ => ⟨hus ▸ .nil, hfs⟩)
  | t :: ts => by
    unfold terms
    refine ((builds_term t).bind (fun u => (builds_terms ts).map (fun _ _ => rfl))).mono ?_
    rintro names us fs ⟨u, _, _, ⟨hu, rfl⟩, ⟨us, ⟨hus, rfl⟩, rfl⟩, rfl⟩
    exact ⟨.cons hu hus, rfl⟩

/-! ## Literals -/

theorem atom_of_not_negated {name : String} (h : Text.startsWith Predicate.negationMark name = false) (ts : List Term) :
    (Literal.atom name ts : Except Error (Literal W)) = .ok (.certain name ts) := by
  have hneg : (⟨name, ts.length⟩ : Predicate).isNegated = false := h
  simp [Literal.atom, Predicate.check, hneg, Except.map, Literal.certain]

theorem not_negated_primitive (p : String) : Text.startsWith Predicate.negationMark (Predicate.primitiveMark ++ p) = false := by
  have hlist : (Predicate.primitiveMark ++ p).toList = 'f' :: 'n' :: '_' :: p.toList := by
    simp [Predicate.primitiveMark, String.toList_append]
  rw [Text.startsWith, hlist]
  rfl

theorem not_negated_of_isFunction {r : Registry} {name : String} (h : r.IsFunction name) :
    Text.startsWith Predicate.negationMark name = false := by
  obtain ⟨p, rfl, -⟩ := h
  exact not_negated_primitive p

/-- Under the negation mark the name is whole. -/
theorem base_negated (name : String) (n : Nat) : (⟨predicateName true name, n⟩ : Predicate).base = name := by
  simp [predicateName, Predicate.base, Text.after?_append]

/-- A name that may stand in a body passes the check. -/
theorem atom_predicateName {negated : Bool} {name : String} (hname : Predicate.isName name = true)
    (hlegal : negated = true → Text.startsWith Predicate.primitiveMark name = false) (ts : List Term) :
    (Literal.atom (predicateName negated name) ts : Except Error (Literal W)) =
      .ok (.certain (predicateName negated name) ts) := by
  cases negated with
  | false => exact atom_of_not_negated (Predicate.isName.not_negated hname) ts
  | true =>
    have hprim : (⟨predicateName true name, ts.length⟩ : Predicate).isPrimitive = false := by
      rw [Predicate.isPrimitive, base_negated, hlegal rfl]
    simp [Literal.atom, Predicate.check, hprim, Except.map, Literal.certain]

/-- A literal that passes its check is there at once. -/
theorem lift_atom {name : String} {ts : List Term} {l : Literal W} (h : Literal.atom name ts = .ok l) :
    (liftM (Literal.atom name ts : Except Error (Literal W)) : Building (Literal W)) = Pure.pure l := by
  rw [h]
  rfl

variable {r : Registry}

mutual

theorem builds_operand : ∀ {a : Grammar.Operand}, a.CallsFunctions r →
    Builds (operand (W := W) a) (fun names p fs => a.Flat names p.1 p.2 fs)
  | .term t, _ => by
    rw [operand]
    refine ((builds_term t).map (fun _ _ => rfl)).mono ?_
    rintro names p fs ⟨u, ⟨hu, rfl⟩, rfl⟩
    exact .term hu
  | .call name args, h => by
    rw [Grammar.Operand.CallsFunctions] at h
    rw [operand]
    have hatom := atom_of_not_negated (W := W) (not_negated_of_isFunction h.1)
    simp only [lift_atom (hatom _), pure_bind]
    refine ((builds_operands h.2).bind (fun p => builds_fresh.map (fun _ _ => rfl))).mono ?_
    rintro names p fs ⟨q, fs, gs, hq, ⟨out, ⟨v, rfl, rfl⟩, rfl⟩, rfl⟩
    exact .call hq

theorem builds_operands : ∀ {as : List Grammar.Operand}, Grammar.Operand.AllCallFunctions r as →
    Builds (operands (W := W) as) (fun names p fs => Grammar.Operand.AllFlat names as p.1 p.2 fs)
  | [], _ => by
    rw [operands]
    refine (Builds.pure _).mono ?_
    rintro names p fs ⟨rfl, rfl⟩
    exact .nil
  | a :: as, h => by
    rw [Grammar.Operand.AllCallFunctions] at h
    rw [operands]
    refine ((builds_operand h.1).bind (fun p => (builds_operands h.2).map (fun _ _ => rfl))).mono ?_
    rintro names p fs ⟨⟨u, first⟩, fs, gs, hu, ⟨⟨us, rest⟩, hus, rfl⟩, rfl⟩
    exact .cons hu hus

end

theorem comparison_not_negated (sign : Grammar.Comparison) :
    Text.startsWith Predicate.negationMark (comparison sign).1 = false ∧
      Text.startsWith Predicate.negationMark (comparison sign).2 = false := by
  cases sign <;> exact ⟨rfl, rfl⟩

/-- **An item that is legal is made into literals.** -/
theorem builds_item {i : Grammar.Item} (hi : i.IsSpelled) (h : i.IsLegal r) :
    Builds (item (W := W) i) (fun names ls fs => i.Flat names ls fs) := by
  cases i with
  | assignment target value =>
    cases value with
    | term t =>
      have hname : Text.startsWith Predicate.negationMark "fn_identity" = false := rfl
      unfold item
      simp only [lift_atom (atom_of_not_negated (W := W) hname _), pure_bind]
      refine ((builds_named target).bind (fun _ => (builds_term t).map (fun _ _ => rfl))).mono ?_
      rintro names ls fs ⟨out, _, _, ⟨⟨v, hv, rfl⟩, rfl⟩, ⟨u, ⟨hu, rfl⟩, rfl⟩, rfl⟩
      exact .assignTerm hv hu
    | call name args =>
      rw [Grammar.Item.IsLegal, Grammar.Operand.CallsFunctions] at h
      unfold item
      simp only [lift_atom (atom_of_not_negated (W := W) (not_negated_of_isFunction h.1) _), pure_bind]
      refine ((builds_named target).bind (fun _ => (builds_operands h.2).map (fun _ _ => rfl))).mono ?_
      rintro names ls fs ⟨out, _, fs, ⟨⟨v, hv, rfl⟩, rfl⟩, ⟨p, hp, rfl⟩, rfl⟩
      exact .assignCall hv hp
  | comparison left sign right =>
    unfold item
    simp only [lift_atom (atom_of_not_negated (W := W) (comparison_not_negated sign).1 _),
      lift_atom (atom_of_not_negated (W := W) (comparison_not_negated sign).2 _), pure_bind]
    refine ((builds_operand h.1).bind (fun _ => (builds_operand h.2).bind
      (fun _ => builds_fresh.map (fun _ _ => rfl)))).mono ?_
    rintro names ls _ ⟨⟨x, first⟩, fs, _, hx, ⟨⟨y, second⟩, gs, _, hy, ⟨_, ⟨flag, rfl, rfl⟩, rfl⟩, rfl⟩, rfl⟩
    rw [← List.append_assoc]
    exact .comparison (by simpa using Grammar.Operand.AllFlat.cons hx (.cons hy .nil))
  | atom negated name args =>
    unfold item
    simp only [lift_atom (atom_predicateName (W := W) hi.1 h.1 _), pure_bind]
    refine ((builds_operands h.2).map (fun _ _ => rfl)).mono ?_
    rintro names ls fs ⟨p, hp, rfl⟩
    exact .atom hp

/-- A primitive that is negated is refused. -/
theorem item_of_negated_primitive {name : String} {args : List Grammar.Operand} (hargs : Grammar.Operand.AllCallFunctions r args)
    (h : Text.startsWith Predicate.primitiveMark name = true) {s : Scope} (hs : s.Sound) :
    ∃ n, item (W := W) (.atom true name args) s = .error (.negatedPrimitive (Predicate.text ⟨predicateName true name, n⟩)) := by
  obtain ⟨⟨ts, steps⟩, s', -, hargs, -, -⟩ := builds_operands (W := W) hargs s hs
  have hnegated : (⟨predicateName true name, ts.length⟩ : Predicate).isNegated = true := Text.startsWith_iff.2 ⟨name, rfl⟩
  have hatom : (Literal.atom (predicateName true name) ts : Except Error (Literal W)) =
      .error (.negatedPrimitive (Predicate.text ⟨predicateName true name, ts.length⟩)) := by
    simp [Literal.atom, Predicate.check, hnegated, Predicate.isPrimitive, base_negated, h, Except.map]
  refine ⟨ts.length, ?_⟩
  unfold item
  simp only [bind, StateT.bind, Except.bind, hargs, hatom]
  rfl

/-- **A body whose items are legal is made into the literals of its items.** -/
theorem builds_items : ∀ {is : List Grammar.Item}, (∀ i ∈ is, i.IsSpelled ∧ i.IsLegal r) →
    Builds (items (W := W) is) (fun names ls fs => Grammar.Item.AllFlat names is ls fs)
  | [], _ => by
    refine (Builds.pure _).mono ?_
    rintro names ls fs ⟨rfl, rfl⟩
    exact .nil
  | i :: is, h => by
    obtain ⟨hi, his⟩ := List.forall_mem_cons.1 h
    unfold items
    refine ((builds_item hi.1 hi.2).bind (fun _ => (builds_items his).map (fun _ _ => rfl))).mono ?_
    rintro names ls _ ⟨first, fs, gs, hfirst, ⟨rest, hrest, rfl⟩, rfl⟩
    exact .cons hfirst hrest

/-- The literals of a body are those of a first part of it and of the rest. -/
theorem items_append {is js : List Grammar.Item} {s s₁ s₂ : Scope} {ls ms : List (Literal W)}
    (h : items is s = .ok (ls, s₁)) (h' : items js s₁ = .ok (ms, s₂)) : items (is ++ js) s = .ok (ls ++ ms, s₂) := by
  induction is generalizing s ls with
  | nil =>
    cases h
    exact h'
  | cons i is ih =>
    unfold items at h
    obtain ⟨first, s', hi, h⟩ := bind_eq_ok_iff.1 h
    obtain ⟨rest, s'', his, h⟩ := bind_eq_ok_iff.1 h
    cases h
    rw [List.cons_append, items]
    refine bind_eq_ok_iff.2 ⟨first, s', hi, bind_eq_ok_iff.2 ⟨rest ++ ms, s₂, ih his, ?_⟩⟩
    rw [List.append_assoc]
    rfl

end Building
end Credence
