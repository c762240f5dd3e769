import Credence.Proofs.Making
import Credence.Proofs.Snapshot
/-!
# What an id tells

An id begins with the name of its literal, so whatever is asked of the beginning of a name can be read off it
(`Literal.isPrimitive_of_id`, `Prover.isRuleWeight_of_id`).  A closed literal in plain words may have more terms than its
predicate has arguments, as an answer of a primitive without arguments has; its id and key tell its form all the same
(`Clause.key_iff_of_legible`).
-/
namespace Credence

/-! ## How names begin -/

/-- What stands before the arguments is the name. -/
theorem Literal.startsWith_applied {lead name : String} (h : '(' ∉ lead.toList) (separator : String) (args : List String) :
    Text.startsWith lead (applied separator name args) = Text.startsWith lead name := by
  unfold applied
  split
  · rfl
  · rw [Bool.eq_iff_iff, Text.startsWith_iff, Text.startsWith_iff]
    constructor
    · rintro ⟨t, ht⟩
      have hlist := congrArg String.toList ht
      simp only [String.toList_append, List.append_assoc] at hlist
      rcases List.append_eq_append_iff.1 hlist with ⟨cs, hlead, hrest⟩ | ⟨cs, hname, -⟩
      · cases cs with
        | nil => exact ⟨"", String.toList_injective (by simpa [String.toList_append] using hlead.symm)⟩
        | cons c cs =>
          -- the lead would reach into the parenthesis
          have hc : '(' = c := by
            rw [show "(".toList = ['('] by rfl] at hrest
            exact (List.cons.inj hrest).1
          exact absurd (by rw [hlead, ← hc]; simp) h
      · exact ⟨String.ofList cs, String.toList_injective (by simp [hname])⟩
    · rintro ⟨t, rfl⟩
      exact ⟨t ++ "(" ++ String.intercalate separator args ++ ")", by simp only [String.append_assoc]⟩

variable {W : Type} [Weight W]

namespace Literal

variable [LawfulWeight W] {l m : Literal W}

theorem startsWith_name_of_id (h : l.id = m.id) {lead : String} (hlead : '(' ∉ lead.toList) :
    Text.startsWith lead l.name = Text.startsWith lead m.name := by
  rw [← startsWith_applied hlead "," (l.terms.map idTerm), (text_of_id h).2, startsWith_applied hlead]

theorem isPrimitive_of_id (h : l.id = m.id) : l.isPrimitive = m.isPrimitive := by
  have hneg := isNegated_of_id h
  have key : ∀ k : Literal W, k.isPrimitive = if k.isNegated then Text.startsWith "~fn_" k.name else Text.startsWith "fn_" k.name := by
    intro k
    cases hk : k.isNegated with
    | false =>
      rw [if_neg (by simp), isPrimitive, Predicate.isPrimitive, Predicate.base_of_not_isNegated hk]
      rfl
    | true =>
      have hname : k.name = "~" ++ k.predicate.base := Predicate.name_of_isNegated hk
      rw [if_pos rfl, hname, isPrimitive, Predicate.isPrimitive, Bool.eq_iff_iff, Text.startsWith_iff, Text.startsWith_iff]
      have hmark : ∀ t : String, "~fn_" ++ t = "~" ++ ("fn_" ++ t) := fun t => by rw [← String.append_assoc]; rfl
      constructor
      · rintro ⟨t, ht⟩
        exact ⟨t, by rw [hmark, ht]; rfl⟩
      · rintro ⟨t, ht⟩
        rw [hmark] at ht
        have hlist := congrArg String.toList ht
        rw [String.toList_append, String.toList_append] at hlist
        exact ⟨t, String.toList_injective (List.append_cancel_left hlist)⟩
  rw [key l, key m, hneg, startsWith_name_of_id h (by decide), startsWith_name_of_id h (by decide)]

end Literal

theorem Prover.isRuleWeight_of_id [LawfulWeight W] {l m : Literal W} (h : l.id = m.id) : isRuleWeight l = isRuleWeight m := by
  rw [isRuleWeight, isRuleWeight, Literal.isNegated_of_id h, Literal.startsWith_name_of_id h (by decide)]

/-! ## Closed literals in plain words -/

namespace Literal

omit [Weight W]

structure Legible (l : Literal W) : Prop where
  name     : l.predicate.isPlain = true
  constant : ∀ c, Term.const c ∈ l.terms → c.isPlain = true
  closed   : l.isSemiGrounded = true

/-- The literal with as many arguments as terms. -/
def fitted (l : Literal W) : Literal W := { l with predicate := ⟨l.name, l.terms.length⟩ }

theorem fitted_of_isWellFormed {l : Literal W} (h : l.isWellFormed = true) : l.fitted = l := by
  rw [fitted, isWellFormed_iff.1 h]
  rfl

/-- Name and constants are such as a text of the language can give. -/
structure IsWorded (l : Literal W) : Prop where
  predicate : l.predicate.isPlain = true
  terms     : ∀ t ∈ l.terms, t.isPlain = true

theorem IsWorded.isPlain_fitted {l : Literal W} (h : l.IsWorded) : l.fitted.isPlain = true := by
  simp only [isPlain, Bool.and_eq_true, List.all_eq_true]
  exact ⟨⟨h.predicate, by simp [fitted, isWellFormed]⟩, h.terms⟩

theorem Legible.isPlain_fitted {l : Literal W} (h : l.Legible) : l.fitted.isPlain = true := by
  simp only [isPlain, Bool.and_eq_true, List.all_eq_true]
  refine ⟨⟨h.name, by simp [fitted, isWellFormed]⟩, fun t ht => ?_⟩
  cases t with
  | const c => exact h.constant c ht
  | var v => rfl

variable [Weight W] {l m : Literal W}

theorem Legible.id_eq_iff (hl : l.Legible) (hm : m.Legible) : l.id = m.id ↔ l.form = m.form := by
  show l.fitted.id = m.fitted.id ↔ l.fitted.form = m.fitted.form
  exact Literal.id_eq_iff hl.isPlain_fitted hm.isPlain_fitted

end Literal

namespace Clause

/-- Every literal is legible. -/
def Legible (c : Clause W) : Prop := c.head.Legible ∧ ∀ l ∈ c.body, l.Legible

def fitted (c : Clause W) : Clause W := ⟨c.head.fitted, c.body.map Literal.fitted⟩

theorem key_fitted (c : Clause W) : c.fitted.key = c.key := by
  have hbody : ∀ (ls : List (Literal W)) (seen : List Var),
      canonicalLiterals seen (ls.map Literal.fitted) = canonicalLiterals seen ls := by
    intro ls
    induction ls with
    | nil => exact fun _ => rfl
    | cons l ls ih =>
      intro seen
      simp only [List.map_cons, canonicalLiterals, ih]
      rfl
  simp only [key, fingerprint, fitted, List.length_map, List.isEmpty_map, hbody]
  rfl

variable [LawfulWeight W] {c d : Clause W}

/-- **Keys tell legible clauses apart by their forms.** -/
theorem key_iff_of_legible (hc : c.Legible) (hd : d.Legible) :
    c.key = d.key ↔ c.head.form = d.head.form ∧ c.body.map Literal.form = d.body.map Literal.form := by
  have hfit : ∀ {c : Clause W}, c.Legible → c.fitted.isSemiGrounded = true ∧ c.fitted.isPlain = true := by
    intro c hc
    simp only [isSemiGrounded, isPlain, fitted, Bool.and_eq_true, List.all_eq_true]
    refine ⟨⟨hc.1.closed, fun l hl => ?_⟩, hc.1.isPlain_fitted, fun l hl => ?_⟩
    · obtain ⟨m, hm, rfl⟩ := List.mem_map.1 hl
      exact (hc.2 m hm).closed
    · obtain ⟨m, hm, rfl⟩ := List.mem_map.1 hl
      exact (hc.2 m hm).isPlain_fitted
  rw [← key_fitted c, ← key_fitted d, key_eq_iff (hfit hc).1 (hfit hd).1 (hfit hc).2 (hfit hd).2]
  simp only [fitted, List.map_map]
  rfl

theorem ids_of_key (hc : c.Legible) (hd : d.Legible) (h : c.key = d.key) :
    c.head.id = d.head.id ∧ c.body.map Literal.id = d.body.map Literal.id := by
  obtain ⟨hhead, hbody⟩ := (key_iff_of_legible hc hd).1 h
  exact ⟨(hc.1.id_eq_iff hd.1).2 hhead, Literal.map_id_of_map_form hbody⟩

/-- Facts with the same id have the same key. -/
theorem key_of_id (hc : c.body = []) (hd : d.body = []) (hcl : c.head.Legible) (hdl : d.head.Legible)
    (h : c.head.id = d.head.id) : c.key = d.key :=
  (key_iff_of_legible ⟨hcl, by simp [hc]⟩ ⟨hdl, by simp [hd]⟩).2 ⟨(hcl.id_eq_iff hdl).1 h, by rw [hc, hd]⟩

end Clause
end Credence
