import Credence.Proofs.Desugaring
import Credence.Proofs.Ordering
/-!
# The variables of calls

Every variable that is drawn for a call or for a comparison is new in its statement, and one literal computes it: the
first that has it, which does not need it (`Produced`).  There is one item where a second literal computes such a variable
again.  An atom of a function has its output in front, and when a call stands there the atom checks the result of the call
against its own.
-/
namespace Credence

variable {W : Type}

/-- A function computes the variable in front. -/
def Literal.Computes (r : Registry) (l : Literal W) (v : Var) : Prop := l.isPrimitive = true ∧ .var v ∈ l.outputs r

/-- One literal computes the variable, without needing it, and no literal in front of it has it. -/
def Produced (r : Registry) (ls : List (Literal W)) (v : Var) : Prop :=
  ∃ front l behind, ls = front ++ l :: behind ∧ l.Computes r v ∧ .var v ∉ l.inputs r ∧
    (∀ k ∈ front, .var v ∉ k.terms) ∧ ∀ k ∈ behind, ¬ k.Computes r v

variable {r : Registry} {ls ms : List (Literal W)} {l : Literal W} {v : Var}

theorem Literal.Computes.mem (h : l.Computes r v) : .var v ∈ l.terms := (l.mem_terms_iff r).2 (.inl h.2)

theorem Produced.append_right (h : Produced r ls v) (hms : ∀ k ∈ ms, ¬ k.Computes r v) : Produced r (ls ++ ms) v := by
  obtain ⟨front, l, behind, rfl, hl, hin, hfront, hbehind⟩ := h
  refine ⟨front, l, behind ++ ms, by rw [List.append_assoc]; rfl, hl, hin, hfront, fun k hk => ?_⟩
  exact (List.mem_append.1 hk).elim (hbehind k) (hms k)

theorem Produced.append_left (h : Produced r ls v) (hms : ∀ k ∈ ms, .var v ∉ k.terms) : Produced r (ms ++ ls) v := by
  obtain ⟨front, l, behind, rfl, hl, hin, hfront, hbehind⟩ := h
  refine ⟨ms ++ front, l, behind, by rw [List.append_assoc], hl, hin, fun k hk => ?_, hbehind⟩
  exact (List.mem_append.1 hk).elim (hms k) (hfront k)

theorem Produced.snoc (hl : l.Computes r v) (hin : .var v ∉ l.inputs r) (hls : ∀ k ∈ ls, .var v ∉ k.terms) :
    Produced r (ls ++ [l]) v :=
  ⟨ls, l, [], rfl, hl, hin, hls, fun _ hk => absurd hk List.not_mem_nil⟩

/-! ## Literals of calls and tests -/

variable [Weight W]

theorem Literal.base_certain (p : String) (ts : List Term) :
    (certain (Predicate.primitiveMark ++ p) ts : Literal W).predicate.base = Predicate.primitiveMark ++ p :=
  Predicate.base_of_not_isNegated (Building.not_negated_primitive p)

theorem Literal.primitive?_certain (p : String) (ts : List Term) :
    (certain (Predicate.primitiveMark ++ p) ts : Literal W).primitive? = some p := by
  rw [primitive?, Predicate.primitive?, base_certain, Text.after?_append]

/-- A call computes its first argument from the others. -/
theorem Literal.flow_call {name : String} (hf : r.IsFunction name) (t : Term) (ins : List Term) :
    (certain name (t :: ins) : Literal W).isPrimitive = true ∧ (certain name (t :: ins) : Literal W).outputs r = [t] ∧
      (certain name (t :: ins) : Literal W).inputs r = ins := by
  obtain ⟨p, rfl, hk⟩ := hf
  refine ⟨?_, ?_, ?_⟩
  · rw [isPrimitive, Predicate.isPrimitive, base_certain]
    exact Text.startsWith_iff.2 ⟨p, rfl⟩
  · unfold outputs
    simp only [primitive?_certain, hk]
    rfl
  · unfold inputs
    simp only [primitive?_certain, hk]
    rfl

theorem Literal.computes_call_iff {name : String} (hf : r.IsFunction name) {t : Term} {ins : List Term} :
    (certain name (t :: ins) : Literal W).Computes r v ↔ t = .var v := by
  obtain ⟨hprim, hout, -⟩ := flow_call (W := W) hf t ins
  rw [Computes, hout, List.mem_singleton, and_iff_right hprim, eq_comm]

/-- What computes a variable is a function, and has the variable in front. -/
theorem Literal.Computes.isFunction {negated : Bool} {name : String} {ts : List Term} (hname : Predicate.isName name = true)
    (hlegal : negated = true → Text.startsWith Predicate.primitiveMark name = false)
    (h : (certain (Building.predicateName negated name) ts : Literal W).Computes r v) :
    negated = false ∧ r.IsFunction name ∧ ∃ ins, ts = .var v :: ins := by
  obtain ⟨hprim, hout⟩ := h
  cases negated with
  | true =>
    have hbase : (certain (Building.predicateName true name) ts : Literal W).predicate.base = name :=
      Building.base_negated name ts.length
    rw [isPrimitive, Predicate.isPrimitive, hbase, hlegal rfl] at hprim
    cases hprim
  | false =>
    have hbase : (certain name ts : Literal W).predicate.base = name :=
      Predicate.base_of_not_isNegated (Predicate.isName.not_negated hname)
    have hmark : Text.startsWith Predicate.primitiveMark name = true := by
      rw [← hbase]
      exact hprim
    obtain ⟨p, rfl⟩ := Text.startsWith_iff.1 hmark
    replace hout : .var v ∈ (certain (Predicate.primitiveMark ++ p) ts : Literal W).outputs r := hout
    unfold outputs at hout
    rw [primitive?_certain] at hout
    cases hk : r.kind p with
    | test => simp [hk] at hout
    | function =>
      refine ⟨rfl, ⟨p, rfl, hk⟩, ?_⟩
      cases ts with
      | nil => simp [hk, certain] at hout
      | cons t ins =>
        have ht : .var v = t := by simpa [hk, certain] using hout
        exact ⟨ins, by rw [ht]⟩

theorem Building.comparison_isFunction (sign : Grammar.Comparison) : r.IsFunction (comparison sign).1 := by
  cases sign with
  | equal | different => exact ⟨"eq", rfl, rfl⟩
  | less => exact ⟨"lt", rfl, rfl⟩
  | atMost => exact ⟨"lte", rfl, rfl⟩
  | greater => exact ⟨"gt", rfl, rfl⟩
  | atLeast => exact ⟨"gte", rfl, rfl⟩

/-- The test behind a comparison computes nothing. -/
theorem Building.comparison_not_computes (sign : Grammar.Comparison) (ts : List Term) :
    ¬ (Literal.certain (comparison sign).2 ts : Literal W).Computes r v := by
  rintro ⟨-, hout⟩
  have htest : ∃ p, (comparison sign).2 = Predicate.primitiveMark ++ p ∧ r.kind p = .test := by
    cases sign with
    | different => exact ⟨"is_false", rfl, rfl⟩
    | equal | less | atMost | greater | atLeast => exact ⟨"is_true", rfl, rfl⟩
  obtain ⟨p, hp, hk⟩ := htest
  rw [hp] at hout
  unfold Literal.outputs at hout
  rw [Literal.primitive?_certain] at hout
  simp [hk] at hout

/-! ## Calls -/

namespace Grammar

variable {names : Naming} {fs : List Var}

/-- The variable of a call is not one of those drawn for its arguments. -/
theorem var_ne_of_spare {w : Var} (hs : Spare names (fs ++ [w])) (hv : v ∈ fs) : Term.var w ≠ .var v := by
  intro e
  injection e with e
  exact (List.nodup_append.1 hs.nodup).2.2 v hv w (List.mem_singleton.2 rfl) e.symm

mutual

theorem Operand.Flat.produced : ∀ {a : Operand} {u : Term} {ls : List (Literal W)} {fs : List Var}, a.Flat names u ls fs →
    a.CallsFunctions r → Spare names fs → ∀ v ∈ fs, Produced r ls v
  | .term _, _, _, _, .term _, _, _ => fun _ hv => nomatch hv
  | .call _ _, _, _, _, .call (v := w) h, hc, hs => by
    rw [Operand.CallsFunctions] at hc
    obtain ⟨hins, hsteps⟩ := Operand.AllFlat.covered h
    intro v hv
    rcases List.mem_append.1 hv with hv | hv
    · refine (Operand.AllFlat.produced h hc.2 hs.left v hv).append_right (fun k hk hcomputes => ?_)
      rw [List.mem_singleton.1 hk, Literal.computes_call_iff hc.1] at hcomputes
      exact var_ne_of_spare hs hv hcomputes
    · refine .snoc ?_ ?_ (fun k hk => (hsteps k hk).not_mem hs hv)
      · rw [Literal.computes_call_iff hc.1, List.mem_singleton.1 hv]
      · rw [(Literal.flow_call hc.1 _ _).2.2]
        exact hins.not_mem hs hv

theorem Operand.AllFlat.produced : ∀ {as : List Operand} {us : List Term} {ls : List (Literal W)} {fs : List Var},
    Operand.AllFlat names as us ls fs → Operand.AllCallFunctions r as → Spare names fs → ∀ v ∈ fs, Produced r ls v
  | [], _, _, _, .nil, _, _ => fun _ hv => nomatch hv
  | _ :: _, _, _, _, .cons h h', hc, hs => by
    rw [Operand.AllCallFunctions] at hc
    obtain ⟨-, hfirst⟩ := Operand.Flat.covered h
    obtain ⟨-, hrest⟩ := Operand.AllFlat.covered h'
    intro v hv
    rcases List.mem_append.1 hv with hv | hv
    · refine (Operand.Flat.produced h hc.1 hs.left v hv).append_right (fun k hk hcomputes => ?_)
      exact (hrest k hk).not_mem hs.swap hv hcomputes.mem
    · exact (Operand.AllFlat.produced h' hc.2 hs.right v hv).append_left (fun k hk => (hfirst k hk).not_mem hs hv)

end

/-! ## Items -/

/-- An atom of a function with a call in the place of its output. -/
def Item.ChecksCall (r : Registry) : Item → Prop
  | .atom false name (.call _ _ :: _) => r.IsFunction name
  | _                                 => False

/-- **The variables drawn for an item are computed once each**, but for a call whose result the item checks. -/
theorem Item.Flat.produced {i : Item} {ls : List (Literal W)} (h : i.Flat names ls fs) (hi : i.IsSpelled) (hc : i.IsLegal r)
    (hs : Spare names fs) : ∀ v ∈ fs, Produced r ls v ∨ i.ChecksCall r ∧
      ∃ steps l, ls = steps ++ [l] ∧ Produced r steps v ∧ l.Computes r v ∧ .var v ∉ l.inputs r := by
  intro v hv
  cases h with
  | assignTerm => cases hv
  | assignCall hw hargs =>
    rw [Item.IsLegal, Operand.CallsFunctions] at hc
    refine .inl ((hargs.produced hc.2 hs v hv).append_right (fun k hk hcomputes => ?_))
    rw [List.mem_singleton.1 hk, Literal.computes_call_iff hc.1] at hcomputes
    cases hcomputes
    exact hs.unnamed v hv _ hw
  | @comparison left right sign x y steps fs flag hargs =>
    have hcalls : Operand.AllCallFunctions r [left, right] := ⟨hc.1, hc.2, trivial⟩
    obtain ⟨hxy, hsteps⟩ := hargs.covered
    have hfunction := Building.comparison_isFunction (r := r) sign
    have hcompared : Produced r (steps ++ [.certain (Building.comparison sign).1 [.var flag, x, y]]) v := by
      rcases List.mem_append.1 hv with hv | hv
      · refine (hargs.produced hcalls hs.left v hv).append_right (fun k hk hcomputes => ?_)
        rw [List.mem_singleton.1 hk, Literal.computes_call_iff hfunction] at hcomputes
        exact var_ne_of_spare hs hv hcomputes
      · refine .snoc ?_ ?_ (fun k hk => (hsteps k hk).not_mem hs hv)
        · rw [Literal.computes_call_iff hfunction, List.mem_singleton.1 hv]
        · rw [(Literal.flow_call hfunction _ _).2.2]
          exact hxy.not_mem hs hv
    refine .inl ?_
    rw [List.append_cons]
    refine hcompared.append_right (fun k hk => ?_)
    rw [List.mem_singleton.1 hk]
    exact Building.comparison_not_computes sign _
  | @atom negated name args ts steps fs hargs =>
    have hsteps := hargs.produced hc.2 hs v hv
    by_cases hlast : (Literal.certain (Building.predicateName negated name) ts : Literal W).Computes r v
    · obtain ⟨rfl, hfunction, ins, rfl⟩ := hlast.isFunction hi.1 hc.1
      refine .inr ?_
      cases hargs with
      | cons hfirst hrest =>
        cases hfirst with
        | term hu =>
          -- a name or a wildcard is not a variable that was drawn
          have hcov : Covered names [] [.var v] := hu.covered
          exact absurd (List.mem_singleton.2 rfl) (hcov.not_mem hs hv)
        | call hcall =>
          refine ⟨hfunction, _, _, rfl, hsteps, hlast, ?_⟩
          have hins : (Literal.certain name (.var v :: ins) : Literal W).inputs r = ins := (Literal.flow_call hfunction _ _).2.2
          show .var v ∉ (Literal.certain name (.var v :: ins) : Literal W).inputs r
          rw [hins]
          exact hrest.covered.1.not_mem hs.swap (by simp)
    · exact .inl (hsteps.append_right (fun k hk => List.mem_singleton.1 hk ▸ hlast))

/-- The literals of an item, with the variables drawn for them, say what it says. -/
structure Item.Desugars (r : Registry) (names : Naming) (i : Item) (ls : List (Literal W)) (fs : List Var) : Prop where
  satisfiable_iff : ∀ atoms σ, (∃ ν, names.Agrees σ ν ∧ ∀ l ∈ ls, l.HoldsIn r atoms ν) ↔ i.Holds r atoms σ
  covered  : ∀ l ∈ ls, Covered names fs l.terms
  spare    : Spare names fs
  produced : ∀ v ∈ fs, Produced r ls v ∨ i.ChecksCall r ∧
    ∃ steps l, ls = steps ++ [l] ∧ Produced r steps v ∧ l.Computes r v ∧ .var v ∉ l.inputs r

theorem Item.Flat.desugars {i : Item} {ls : List (Literal W)} (h : i.Flat names ls fs) (hi : i.IsSpelled) (hc : i.IsLegal r)
    (hn : names.Faithful) (hs : Spare names fs) : i.Desugars r names ls fs := by
  have hall : Item.AllFlat names [i] ls fs := by simpa using Item.AllFlat.cons h .nil
  refine ⟨fun atoms σ => ?_, h.covered, hs, h.produced hi hc hs⟩
  exact (hall.satisfiable_iff (List.forall_mem_singleton.2 ⟨hi, hc⟩) hn hs).trans List.forall_mem_singleton

end Grammar

/-! ## Statements -/

namespace Building

theorem covered_of_stands {names : Naming} {ts : List Grammar.Lexeme} {us : List Term}
    (h : List.Forall₂ (fun t u => t.Stands names u) ts us) : Covered names [] us := by
  induction h with
  | nil => exact covered_nil
  | cons hu _ ih => exact hu.covered.cons ih

/-- **A body can be satisfied, for some values of its names, when each of its items holds of them.** -/
theorem items_satisfiable_iff (pool : VarPool) (head : List Grammar.Lexeme) {body : List Grammar.Item}
    (h : ∀ j ∈ body, j.IsSpelled ∧ j.IsLegal r) :
    ∃ ts s₀ ls s, terms head ⟨pool, []⟩ = .ok (ts, s₀) ∧ items (W := W) body s₀ = .ok (ls, s) ∧
      ∀ atoms σ, (∃ ν, Naming.Agrees (fun x => s.names.lookup x) σ ν ∧ ∀ l ∈ ls, l.HoldsIn r atoms ν) ↔
        ∀ j ∈ body, j.Holds r atoms σ := by
  obtain ⟨ts, s₀, fs₀, hts, hg₀, -⟩ := builds_terms head _ (Scope.sound_start pool)
  obtain ⟨ls, s, fs, hls, hg, hflat⟩ := builds_items (W := W) h s₀ hg₀.sound
  exact ⟨ts, s₀, ls, s, hts, hls, fun _ _ => (hflat _ (fun _ _ h => h)).satisfiable_iff h hg.sound.faithful hg.spare⟩

/-- **The literals of every item of a body say what the item says**, in variables that nothing else of the statement has. -/
theorem item_desugars (pool : VarPool) (head : List Grammar.Lexeme) {before after : List Grammar.Item} {i : Grammar.Item}
    (h : ∀ j ∈ before ++ i :: after, j.IsSpelled ∧ j.IsLegal r) :
    ∃ ts s₀ ls₁ s₁ ls s₂ ls₂ s₃ fs,
      terms head ⟨pool, []⟩ = .ok (ts, s₀) ∧ items (W := W) before s₀ = .ok (ls₁, s₁) ∧ item i s₁ = .ok (ls, s₂) ∧
        items after s₂ = .ok (ls₂, s₃) ∧ items (before ++ i :: after) s₀ = .ok (ls₁ ++ (ls ++ ls₂), s₃) ∧
        i.Desugars r (fun x => s₃.names.lookup x) ls fs ∧
        ∀ v ∈ fs, .var v ∉ ts ∧ ∀ l ∈ ls₁ ++ ls₂, .var v ∉ l.terms := by
  obtain ⟨hbefore, hrest⟩ := List.forall_mem_append.1 h
  obtain ⟨hi, hafter⟩ := List.forall_mem_cons.1 hrest
  obtain ⟨ts, s₀, fs₀, hts, hg₀, hhead⟩ := builds_terms head _ (Scope.sound_start pool)
  obtain ⟨ls₁, s₁, fs₁, hls₁, hg₁, hflat₁⟩ := builds_items (W := W) hbefore s₀ hg₀.sound
  obtain ⟨ls, s₂, fs, hls, hg, hflat⟩ := builds_item (W := W) hi.1 hi.2 s₁ hg₁.sound
  obtain ⟨ls₂, s₃, fs₂, hls₂, hg₂, hflat₂⟩ := builds_items (W := W) hafter s₂ hg.sound
  have hcons : items (i :: after) s₁ = .ok (ls ++ ls₂, s₃) := by
    unfold items
    exact bind_eq_ok_iff.2 ⟨ls, s₂, hls, bind_eq_ok_iff.2 ⟨ls₂, s₃, hls₂, rfl⟩⟩
  refine ⟨ts, s₀, ls₁, s₁, ls, s₂, ls₂, s₃, fs, hts, hls₁, hls, hls₂, items_append hls₁ hcons, ?_, fun v hv => ⟨?_, ?_⟩⟩
  · exact (hflat _ hg₂.kept).desugars hi.1 hi.2 hg₂.sound.faithful (hg.trans hg₂).spare.left
  · obtain ⟨hstands, rfl⟩ := hhead _ ((hg₁.trans hg).trans hg₂).kept
    exact (covered_of_stands hstands).not_mem (hg.trans hg₂).spare.left hv
  · intro l hl
    rcases List.mem_append.1 hl with hl | hl
    · exact ((hflat₁ _ (hg.trans hg₂).kept).covered l hl).not_mem ((hg₁.trans hg).trans hg₂).spare.left hv
    · exact ((hflat₂ _ (fun _ _ h => h)).covered l hl).not_mem (hg.trans hg₂).spare.swap hv

/-- A comparison of calls, between an atom and an assignment. -/
theorem item_desugars_comparison :
    let sum : Grammar.Operand := .call "fn_add" [.term (.named "X"), .call "fn_strlen" [.term (.word "a")]]
    let before : List Grammar.Item := [.atom false "q" [.term (.named "X")]]
    let item₀ : Grammar.Item := .comparison (.call "fn_mul" [.term (.named "X"), .term (.number "2")]) .atMost sum
    let after : List Grammar.Item := [.assignment "Y" (.call "fn_lower" [.term (.named "X")])]
    (∀ j ∈ before ++ item₀ :: after, j.IsSpelled ∧ j.IsLegal .empty) ∧
      ∃ ts s₀ ls₁ s₁ ls s₂ ls₂ s₃ fs,
        terms [.named "X"] ⟨.empty, []⟩ = .ok (ts, s₀) ∧ items (W := ℚ) before s₀ = .ok (ls₁, s₁) ∧
          item item₀ s₁ = .ok (ls, s₂) ∧ items after s₂ = .ok (ls₂, s₃) ∧
          items (before ++ item₀ :: after) s₀ = .ok (ls₁ ++ (ls ++ ls₂), s₃) ∧
          item₀.Desugars .empty (fun x => s₃.names.lookup x) ls fs ∧
          ∀ v ∈ fs, .var v ∉ ts ∧ ∀ l ∈ ls₁ ++ ls₂, .var v ∉ l.terms := by
  intro sum before item₀ after
  have hbefore : ∀ j ∈ before, j.IsSpelled ∧ j.IsLegal .empty := by
    intro j hj
    cases List.mem_singleton.1 hj
    exact ⟨⟨rfl, trivial, trivial⟩, (fun h => nomatch h), trivial, trivial⟩
  have hafter : ∀ j ∈ after, j.IsSpelled ∧ j.IsLegal .empty := by
    intro j hj
    cases List.mem_singleton.1 hj
    exact ⟨⟨rfl, trivial, trivial⟩, ⟨"lower", rfl, rfl⟩, trivial, trivial⟩
  have hitem : item₀.IsSpelled ∧ item₀.IsLegal .empty :=
    ⟨⟨⟨rfl, trivial, rfl, trivial⟩, rfl, trivial, ⟨rfl, rfl, trivial⟩, trivial⟩,
      ⟨⟨"mul", rfl, rfl⟩, trivial, trivial, trivial⟩, ⟨"add", rfl, rfl⟩, trivial, ⟨⟨"strlen", rfl, rfl⟩, trivial, trivial⟩, trivial⟩
  have h : ∀ j ∈ before ++ item₀ :: after, j.IsSpelled ∧ j.IsLegal .empty :=
    List.forall_mem_append.2 ⟨hbefore, List.forall_mem_cons.2 ⟨hitem, hafter⟩⟩
  exact ⟨h, item_desugars .empty [.named "X"] h⟩

/-- **The result of a call in the place of an output is computed twice**: by the call, and by the atom that checks it. -/
theorem output_computed_twice :
    let drawn : Var := ⟨1, false⟩
    let ordinary : Literal ℚ := .certain "q" [.var ⟨0, false⟩]
    let call : Literal ℚ := .certain "fn_mul" [.var drawn, .var ⟨0, false⟩, .const ⟨"2"⟩]
    let check : Literal ℚ := .certain "fn_add" [.var drawn, .const ⟨"1"⟩, .const ⟨"2"⟩]
    terms [.named "X"] ⟨.empty, []⟩ = .ok ([.var ⟨0, false⟩], ⟨⟨1⟩, [("X", ⟨0, false⟩)]⟩) ∧
      items [.atom false "q" [.term (.named "X")], .atom false "fn_add"
          [.call "fn_mul" [.term (.named "X"), .term (.number "2")], .term (.number "1"), .term (.number "2")]]
        ⟨⟨1⟩, [("X", ⟨0, false⟩)]⟩ = .ok ([ordinary, call, check], ⟨⟨2⟩, [("X", ⟨0, false⟩)]⟩) ∧
      call.Computes .empty drawn ∧ check.Computes .empty drawn ∧ ¬ Produced .empty [call, check] drawn := by
  intro drawn ordinary call check
  have hcall : call.Computes .empty drawn := (Literal.computes_call_iff ⟨"mul", rfl, rfl⟩).2 rfl
  have hcheck : check.Computes .empty drawn := (Literal.computes_call_iff ⟨"add", rfl, rfl⟩).2 rfl
  refine ⟨rfl, rfl, hcall, hcheck, ?_⟩
  rintro ⟨front, l, behind, e, -, -, hfront, hbehind⟩
  match front with
  | [] =>
    injection e with _ e
    exact hbehind check (e ▸ List.mem_singleton.2 rfl) hcheck
  | first :: _ =>
    injection e with e _
    exact hfront first List.mem_cons_self (e ▸ hcall.mem)

end Building
end Credence
