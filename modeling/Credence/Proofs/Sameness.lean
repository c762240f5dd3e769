import Credence.Proofs.Binding
import Credence.Proofs.Legible
import Credence.Proofs.Numbering
/-!
# Which clauses are the same

The fingerprint of a clause is one text, with one numbering from the head through the body.  For clauses in the words
of the language it says all there is to say but the names of variables: fingerprints are equal exactly when the clauses
are each other's renamings, with wildcards facing wildcards (`Clause.fingerprint_eq_iff`).
-/
namespace Credence

variable {W : Type}

/-! ## Slots -/

/-- What stands at a place of a clause: a constant, a wildcard, or a variable. -/
def Term.slot : Term → Option Constant ⊕ Var
  | .const c => .inl (some c)
  | .var v   => if v.wildcard then .inl none else .inr v

theorem Term.slot_named {v : Var} (h : v.wildcard = false) : (Term.var v).slot = .inr v := by
  rw [slot, if_neg (by simp [h])]

theorem Term.slot_wildcard {v : Var} (h : v.wildcard = true) : (Term.var v).slot = .inl none := if_pos h

def slotText : Option Constant ⊕ Nat → String
  | .inl (some c) => c.printed
  | .inl none     => "_"
  | .inr n        => "?" ++ toString n

/-- A slot whose constant is in the words of the language. -/
def IsPlainSlot (x : Option Constant ⊕ Nat) : Prop := ∀ c, x = .inl (some c) → c.isPlain = true

theorem slotText_inj {x y : Option Constant ⊕ Nat} (hx : IsPlainSlot x) (hy : IsPlainSlot y)
    (h : slotText x = slotText y) : x = y := by
  have hmark : ∀ {c : Constant}, c.isPlain = true → c.printed ≠ "_" ∧ ∀ n : Nat, c.printed ≠ "?" ++ toString n := by
    intro c hc
    simp only [Constant.isPlain, Bool.and_eq_true, bne_iff_ne, ne_eq] at hc
    refine ⟨fun e => hc.2 (by rw [e]; rfl), fun n e => ?_⟩
    have := List.all_eq_true.1 hc.1.2 '?' (by rw [e]; simp)
    exact absurd this (by decide)
  have hwild : ∀ n : Nat, "_" ≠ "?" ++ toString n := by
    intro n e
    have := congrArg (fun s : String => s.toList.head?) e
    simp [String.toList_append] at this
  rcases x with (_ | c) | m <;> rcases y with (_ | d) | n
  · rfl
  · exact absurd h.symm (hmark (hy d rfl)).1
  · exact absurd h (hwild n)
  · exact absurd h (hmark (hx c rfl)).1
  · exact congrArg (fun c => Sum.inl (some c)) (by cases c; cases d; exact congrArg _ h)
  · exact absurd h ((hmark (hx c rfl)).2 n)
  · exact absurd h.symm (hwild m)
  · exact absurd h.symm ((hmark (hy d rfl)).2 m)
  · have h' := congrArg String.toList h
    simp only [slotText, String.toList_append] at h'
    rw [Text.toString_nat_inj (String.toList_injective (List.append_cancel_left h'))]

theorem map_slotText_inj : ∀ {xs ys : List (Option Constant ⊕ Nat)}, (∀ x ∈ xs, IsPlainSlot x) →
    (∀ y ∈ ys, IsPlainSlot y) → xs.map slotText = ys.map slotText → xs = ys
  | [], [], _, _, _ => rfl
  | x :: xs, y :: ys, hx, hy, h => by
    obtain ⟨hxy, hrest⟩ := List.cons.inj h
    obtain ⟨hx, hxs⟩ := List.forall_mem_cons.1 hx
    obtain ⟨hy, hys⟩ := List.forall_mem_cons.1 hy
    rw [slotText_inj hx hy hxy, map_slotText_inj hxs hys hrest]

/-- Slots that are each other's renamings belong to terms that are. -/
theorem relabeled_of_slot {f : Var → Var} {t u : Term} (h : u.slot = t.slot.map id f) : Relabeled f t u := by
  have hconst : ∀ {u : Term} {c : Constant}, u.slot = .inl (some c) → u = .const c := by
    intro u c hu
    cases u with
    | const d => exact congrArg Term.const (Option.some.inj (Sum.inl.inj hu))
    | var w => by_cases hw : w.wildcard <;> simp [Term.slot, hw] at hu
  cases t with
  | const c => exact hconst h
  | var v =>
    by_cases hv : v.wildcard = true
    · simp only [Relabeled, hv, if_true]
      rw [Term.slot_wildcard hv] at h
      cases u with
      | const d => cases h
      | var w => exact ⟨w, by by_contra hw; simp [Term.slot, hw] at h, rfl⟩
    · simp only [Relabeled, hv, Bool.false_eq_true, if_false]
      rw [Term.slot_named (by simpa using hv)] at h
      cases u with
      | const d => cases h
      | var w => by_cases hw : w.wildcard <;> simp_all [Term.slot]

theorem relabeled_of_slots {f : Var → Var} : ∀ {ts us : List Term},
    us.map Term.slot = renamed f (ts.map Term.slot) → List.Forall₂ (Relabeled f) ts us
  | [], [], _ => .nil
  | _ :: _, _ :: _, h => by
    obtain ⟨htu, hrest⟩ := List.cons.inj h
    exact .cons (relabeled_of_slot htu) (relabeled_of_slots hrest)

theorem mem_lettersOf_slots {ts : List Term} {v : Var} : v ∈ lettersOf (ts.map Term.slot) ↔ VarsOf ts v := by
  constructor
  · intro h
    obtain ⟨t, ht, e⟩ := List.mem_map.1 h
    cases t with
    | const c => cases e
    | var w =>
      by_cases hw : w.wildcard = true
      · rw [Term.slot_wildcard hw] at e
        cases e
      · have hw : w.wildcard = false := by simpa using hw
        rw [Term.slot_named hw] at e
        exact Sum.inr.inj e ▸ ⟨hw, ht⟩
  · rintro ⟨hv, ht⟩
    exact List.mem_map.2 ⟨_, ht, Term.slot_named hv⟩

namespace Literal

def slots (l : Literal W) : List (Option Constant ⊕ Var) := l.terms.map Term.slot

/-- The slots with variables by their place in `order`. -/
def numberedIn (order : List Var) (l : Literal W) : List (Option Constant ⊕ Nat) := renamed order.idxOf l.slots

theorem isPlainSlot_numberedIn {l : Literal W} (h : ∀ t ∈ l.terms, t.isPlain = true) (order : List Var) :
    ∀ x ∈ l.numberedIn order, IsPlainSlot x := by
  intro x hx c hc
  obtain ⟨y, hy, rfl⟩ := List.mem_map.1 hx
  obtain ⟨t, ht, rfl⟩ := List.mem_map.1 hy
  cases t with
  | const d => exact Option.some.inj (Sum.inl.inj hc) ▸ h _ ht
  | var v => by_cases hv : v.wildcard <;> simp [Term.slot, hv] at hc

end Literal

/-! ## Fingerprints -/

namespace Clause

open Literal

/-- The terms in a key are the slots, with variables by first occurrence. -/
theorem canonicalTerms_eq : ∀ (seen : List Var) (ts : List Term), canonicalTerms seen ts =
    ((renamed (firsts seen (ts.map Term.slot)).idxOf (ts.map Term.slot)).map slotText, firsts seen (ts.map Term.slot))
  | _, [] => rfl
  | seen, .const c :: ts => by
    rw [canonicalTerms, canonicalTerms_eq]
    rfl
  | seen, .var v :: ts => by
    rw [canonicalTerms]
    by_cases hv : v.wildcard = true
    · rw [if_pos hv, canonicalTerms_eq]
      simp only [List.map_cons, Term.slot_wildcard hv]
      rfl
    · rw [if_neg hv]
      dsimp only
      rw [canonicalTerms_eq]
      have hnext : (if seen.idxOf v < seen.length then seen else seen ++ [v]) = if v ∈ seen then seen else seen ++ [v] :=
        if_congr List.idxOf_lt_length_iff rfl rfl
      have hmem : v ∈ (if v ∈ seen then seen else seen ++ [v]) := by
        by_cases hm : v ∈ seen
        · rwa [if_pos hm]
        · rw [if_neg hm]
          simp
      have hplace : (firsts (if v ∈ seen then seen else seen ++ [v]) (ts.map Term.slot)).idxOf v = seen.idxOf v := by
        rw [idxOf_firsts hmem]
        by_cases hm : v ∈ seen
        · rw [if_pos hm]
        · rw [if_neg hm, List.idxOf_append_of_notMem hm, List.idxOf_eq_length hm]
          simp
      rw [hnext, List.map_cons, Term.slot_named (by simpa using hv), firsts, renamed_cons, List.map_cons, Sum.map_inr, hplace]
      rfl

variable [Weight W]

/-- What a key has of literals, by an order of variables that begins with their first occurrences. -/
theorem forms_eq {order : List Var} : ∀ {seen : List Var} {ls : List (Literal W)},
    firsts seen (ls.flatMap slots) <+: order →
      forms seen ls = ls.map (fun l => (Weight.text l.weight, l.name, (l.numberedIn order).map slotText))
  | _, [], _ => rfl
  | seen, l :: ls, h => by
    rw [List.flatMap_cons, firsts_append] at h
    obtain ⟨more, hmore⟩ := (prefix_firsts (firsts seen l.slots) (ls.flatMap slots)).trans h
    have hslots : renamed (firsts seen l.slots).idxOf l.slots = l.numberedIn order := by
      refine List.map_congr_left (fun x hx => ?_)
      cases x with
      | inl k => rfl
      | inr v =>
        have hv : v ∈ firsts seen l.slots := mem_firsts.2 (.inr hx)
        have hplace : order.idxOf v = (firsts seen l.slots).idxOf v := by rw [← hmore, List.idxOf_append_of_mem hv]
        exact congrArg Sum.inr hplace.symm
    rw [forms, canonicalTerms_eq, List.map_cons]
    exact List.cons_eq_cons.2 ⟨by rw [← hslots]; rfl, forms_eq h⟩

/-- The text behind the head. -/
theorem fingerprint_eq (c : Clause W) : ∃ f fs, forms [] (c.head :: c.body) = f :: fs ∧ fs.length = c.body.length ∧
    c.fingerprint = written f ++ (if fs.isEmpty then "" else ":-" ++ String.intercalate "," (fs.map written)) := by
  refine ⟨_, _, rfl, forms_length _ _, ?_⟩
  have hempty : (forms (canonicalTerms [] c.head.terms).2 c.body).isEmpty = c.body.isEmpty := by
    rw [Bool.eq_iff_iff, List.isEmpty_iff_length_eq_zero, List.isEmpty_iff_length_eq_zero, forms_length]
  rw [fingerprint, hempty, ← canonicalLiterals_eq]
  dsimp only [canonicalLiteral]
  split
  · exact String.append_empty.symm
  · exact String.append_assoc

/-- Written forms one behind the other are known from the whole, their number too. -/
theorem intercalate_written_all : ∀ {fs gs : List (String × String × List String)}, (∀ f ∈ fs, Readable f) →
    (∀ g ∈ gs, Readable g) → fs ≠ [] → gs ≠ [] →
    String.intercalate "," (fs.map written) = String.intercalate "," (gs.map written) → fs = gs
  | [f], [g], hf, hg, _, _, h => intercalate_written_inj rfl hf hg h
  | [f], g :: g' :: gs, hf, hg, _, _, h => by
    have h' := congrArg String.toList h
    simp only [List.map_cons, List.map_nil, String.intercalate_cons_cons, String.intercalate_singleton,
      String.toList_append, List.append_assoc] at h'
    rw [← List.append_nil (written f).toList] at h'
    cases (written_inj (hf f List.mem_cons_self) (hg g List.mem_cons_self) h').2
  | f :: f' :: fs, [g], hf, hg, _, _, h => by
    have h' := congrArg String.toList h
    simp only [List.map_cons, List.map_nil, String.intercalate_cons_cons, String.intercalate_singleton,
      String.toList_append, List.append_assoc] at h'
    rw [← List.append_nil (written g).toList] at h'
    cases (written_inj (hf f List.mem_cons_self) (hg g List.mem_cons_self) h').2
  | f :: f' :: fs, g :: g' :: gs, hf, hg, _, _, h => by
    have h' := congrArg String.toList h
    simp only [List.map_cons, String.intercalate_cons_cons, String.toList_append, List.append_assoc] at h'
    obtain ⟨h1, h2⟩ := written_inj (hf f List.mem_cons_self) (hg g List.mem_cons_self) h'
    have h3 := String.toList_injective (List.append_cancel_left h2)
    rw [h1, intercalate_written_all (fun k hk => hf k (List.mem_cons_of_mem _ hk))
      (fun k hk => hg k (List.mem_cons_of_mem _ hk)) (by simp) (by simp) h3]

/-- **A fingerprint can be taken apart.** -/
theorem forms_eq_of_fingerprint_eq [LawfulWeight W] {c d : Clause W} (hc : ∀ l ∈ c.head :: c.body, l.isPlain = true)
    (hd : ∀ l ∈ d.head :: d.body, l.isPlain = true) (h : c.fingerprint = d.fingerprint) :
    forms [] (c.head :: c.body) = forms [] (d.head :: d.body) := by
  obtain ⟨f, fs, hf, -, ef⟩ := c.fingerprint_eq
  obtain ⟨g, gs, hg, -, eg⟩ := d.fingerprint_eq
  have hreadf := forms_readable [] hc
  have hreadg := forms_readable [] hd
  rw [hf] at hreadf
  rw [hg] at hreadg
  obtain ⟨hf1, hf2⟩ := List.forall_mem_cons.1 hreadf
  obtain ⟨hg1, hg2⟩ := List.forall_mem_cons.1 hreadg
  have h' := congrArg String.toList (ef.symm.trans (h.trans eg))
  rw [String.toList_append, String.toList_append] at h'
  obtain ⟨hhead, hrest⟩ := written_inj hf1 hg1 h'
  have hrest := String.toList_injective hrest
  have hlead : ∀ s : String, ":-" ++ s ≠ "" := by
    intro s e
    have := congrArg String.toList e
    simp [String.toList_append] at this
  rw [hf, hg, hhead]
  refine congrArg _ ?_
  cases fs with
  | nil =>
    cases gs with
    | nil => rfl
    | cons g' gs => exact absurd hrest.symm (hlead _)
  | cons f' fs =>
    cases gs with
    | nil => exact absurd hrest (hlead _)
    | cons g' gs =>
      have hbody := congrArg String.toList hrest
      simp only [List.isEmpty_cons, Bool.false_eq_true, if_false, String.toList_append] at hbody
      exact intercalate_written_all hf2 hg2 (by simp) (by simp)
        (String.toList_injective (List.append_cancel_left hbody))

end Clause

/-! ## Renamings -/

/-- Name, constants and weight are such as a text of the language can give. -/
structure Literal.IsWritable [Weight W] (l : Literal W) : Prop extends l.IsWorded where
  proper : Weight.isProper l.weight = true

namespace Clause

open Literal

/-- Every literal is one that a text of the language can give. -/
def IsWritable [Weight W] (c : Clause W) : Prop := ∀ l ∈ c.head :: c.body, l.IsWritable

/-- **One clause is the other renamed**, one variable for one and with wildcards facing wildcards; all else is equal. -/
def Renames (c d : Clause W) : Prop :=
  ∃ f : Var → Var, Set.BijOn f {v | c.VarsIn v} {v | d.VarsIn v} ∧ Copy f c d

/-- The same up to names of variables, where each predicate has as many arguments as there are terms. -/
def Same (c d : Clause W) : Prop := c.fitted.Renames d.fitted

theorem fitted_of_isWellFormed {c : Clause W} (h : c.IsWellFormed) : c.fitted = c := by
  have hbody : c.body.map Literal.fitted = c.body :=
    (List.map_congr_left (fun l hl => Literal.fitted_of_isWellFormed (h.2 l hl))).trans (List.map_id' _)
  rw [fitted, Literal.fitted_of_isWellFormed h.1, hbody]

theorem same_iff_renames {c d : Clause W} (hc : c.IsWellFormed) (hd : d.IsWellFormed) : c.Same d ↔ c.Renames d := by
  rw [Same, fitted_of_isWellFormed hc, fitted_of_isWellFormed hd]

/-- The slots of head and body. -/
def slots (c : Clause W) : List (Option Constant ⊕ Var) := (c.head :: c.body).flatMap Literal.slots

/-- The variables by first occurrence. -/
def order (c : Clause W) : List Var := firsts [] c.slots

theorem lettersOf_slots (c : Clause W) : lettersOf c.slots = {v | c.VarsIn v} := by
  ext v
  constructor
  · intro h
    obtain ⟨l, hl, hv⟩ := List.mem_flatMap.1 h
    rcases List.mem_cons.1 hl with rfl | hl
    · exact .inl (mem_lettersOf_slots.1 hv)
    · exact .inr ⟨l, hl, mem_lettersOf_slots.1 hv⟩
  · rintro (hv | ⟨l, hl, hv⟩)
    · exact List.mem_flatMap.2 ⟨c.head, List.mem_cons_self, mem_lettersOf_slots.2 hv⟩
    · exact List.mem_flatMap.2 ⟨l, List.mem_cons_of_mem _ hl, mem_lettersOf_slots.2 hv⟩

/-- Weight, name and numbered slots of a literal. -/
def profile (order : List Var) (l : Literal W) : W × String × List (Option Constant ⊕ Nat) :=
  (l.weight, l.name, l.numberedIn order)

/-- The profiles hold the slots of the whole clause, numbered through. -/
theorem renamed_flatMap_slots (order : List Var) (ls : List (Literal W)) :
    renamed order.idxOf (ls.flatMap Literal.slots) = (ls.map (profile order)).flatMap (fun p => p.2.2) := by
  rw [renamed, List.map_flatMap, List.flatMap_map]
  rfl

theorem copy_of_profile {f : Var → Var} {order order' : List Var} {B : Set Var} (hB : Set.InjOn order'.idxOf B)
    {l m : Literal W} (hl : l.isWellFormed = true) (hm : m.isWellFormed = true)
    (hf : ∀ v ∈ lettersOf l.slots, f v ∈ B ∧ order'.idxOf (f v) = order.idxOf v) (hmB : lettersOf m.slots ⊆ B)
    (h : profile order l = profile order' m) : Literal.Copy f l m := by
  obtain ⟨hweight, hname, hslots⟩ := (Prod.mk.inj h).imp_right Prod.mk.inj
  have hterms : List.Forall₂ (Relabeled f) l.terms m.terms := relabeled_of_slots (eq_renamed_of_numbers hB hf hmB hslots)
  refine ⟨hweight.symm, ?_, hterms⟩
  have harity := hterms.length_eq
  rw [isWellFormed_iff.1 hl, isWellFormed_iff.1 hm] at harity
  cases hp : l.predicate; cases hq : m.predicate
  simp only [name, hp, hq] at hname harity
  rw [hname, harity]

theorem copies_of_profiles {f : Var → Var} {order order' : List Var} {B : Set Var} (hB : Set.InjOn order'.idxOf B) :
    ∀ {ls ms : List (Literal W)}, (∀ l ∈ ls, l.isWellFormed = true) → (∀ m ∈ ms, m.isWellFormed = true) →
      (∀ v ∈ lettersOf (ls.flatMap Literal.slots), f v ∈ B ∧ order'.idxOf (f v) = order.idxOf v) →
      lettersOf (ms.flatMap Literal.slots) ⊆ B → ls.map (profile order) = ms.map (profile order') →
      List.Forall₂ (Literal.Copy f) ls ms
  | [], [], _, _, _, _, _ => .nil
  | l :: ls, m :: ms, hl, hm, hf, hmB, h => by
    obtain ⟨hl, hls⟩ := List.forall_mem_cons.1 hl
    obtain ⟨hm, hms⟩ := List.forall_mem_cons.1 hm
    obtain ⟨hlm, hrest⟩ := List.cons.inj h
    have hmem : ∀ {k : Literal W} {ks : List (Literal W)} {v : Var},
        (v ∈ lettersOf k.slots → v ∈ lettersOf ((k :: ks).flatMap Literal.slots)) ∧
          (v ∈ lettersOf (ks.flatMap Literal.slots) → v ∈ lettersOf ((k :: ks).flatMap Literal.slots)) :=
      ⟨fun h => List.mem_append_left _ h, fun h => List.mem_append_right _ h⟩
    exact .cons (copy_of_profile hB hl hm (fun v hv => hf v (hmem.1 hv)) (fun v hv => hmB (hmem.1 hv)) hlm)
      (copies_of_profiles hB hls hms (fun v hv => hf v (hmem.2 hv)) (fun v hv => hmB (hmem.2 hv)) hrest)

/-- **Clauses with the same profiles are each other's renamings.** -/
theorem renames_of_profiles {c d : Clause W} (hc : c.IsWellFormed) (hd : d.IsWellFormed)
    (h : (c.head :: c.body).map (profile c.order) = (d.head :: d.body).map (profile d.order)) : c.Renames d := by
  have hnumbers : renamed c.order.idxOf c.slots = renamed d.order.idxOf d.slots := by
    rw [slots, slots, renamed_flatMap_slots, renamed_flatMap_slots, h]
  have himage : c.order.idxOf '' lettersOf c.slots = d.order.idxOf '' lettersOf d.slots := by
    rw [← lettersOf_renamed, hnumbers, lettersOf_renamed]
  have : Nonempty Var := ⟨⟨0, false⟩⟩
  obtain ⟨f, hf, hnumber⟩ := exists_renaming (injOn_numbers c.slots) (injOn_numbers d.slots) himage
  have hcopies := copies_of_profiles (injOn_numbers d.slots) (List.forall_mem_cons.2 hc) (List.forall_mem_cons.2 hd)
    (fun v hv => ⟨hf.mapsTo hv, hnumber v hv⟩) (fun _ hv => hv) h
  rw [List.forall₂_cons] at hcopies
  exact ⟨f, by rwa [← lettersOf_slots, ← lettersOf_slots], hcopies.1, hcopies.2⟩

variable [Weight W]

/-- The texts of plain literals tell their profiles apart. -/
theorem profiles_eq [LawfulWeight W] {order order' : List Var} : ∀ {ls ms : List (Literal W)}, (∀ l ∈ ls, l.IsWritable) →
    (∀ m ∈ ms, m.IsWritable) →
    ls.map (fun l => (Weight.text l.weight, l.name, (l.numberedIn order).map slotText)) =
      ms.map (fun m => (Weight.text m.weight, m.name, (m.numberedIn order').map slotText)) →
    ls.map (profile order) = ms.map (profile order')
  | [], [], _, _, _ => rfl
  | l :: ls, m :: ms, hl, hm, h => by
    obtain ⟨hl, hls⟩ := List.forall_mem_cons.1 hl
    obtain ⟨hm, hms⟩ := List.forall_mem_cons.1 hm
    obtain ⟨hlm, hrest⟩ := List.cons.inj h
    obtain ⟨htext, hname, hslots⟩ := (Prod.mk.inj hlm).imp_right Prod.mk.inj
    have hweight := LawfulWeight.text_inj _ _ hl.proper hm.proper htext
    have hnumbers := map_slotText_inj (isPlainSlot_numberedIn hl.terms order) (isPlainSlot_numberedIn hm.terms order') hslots
    exact List.cons_eq_cons.2 ⟨Prod.ext hweight (Prod.ext hname hnumbers), profiles_eq hls hms hrest⟩

omit [Weight W] in
theorem isWellFormed_fitted (c : Clause W) : c.fitted.IsWellFormed := by
  refine ⟨by simp [fitted, Literal.fitted, Literal.isWellFormed], fun l hl => ?_⟩
  obtain ⟨m, -, rfl⟩ := List.mem_map.1 hl
  simp [Literal.fitted, Literal.isWellFormed]

theorem IsWritable.fitted {c : Clause W} (h : c.IsWritable) :
    ∀ l ∈ c.fitted.head :: c.fitted.body, l.IsWritable ∧ l.isPlain = true := by
  intro l hl
  obtain ⟨m, hm, rfl⟩ : ∃ m ∈ c.head :: c.body, m.fitted = l := by
    rcases List.mem_cons.1 hl with rfl | hl
    · exact ⟨_, List.mem_cons_self, rfl⟩
    · obtain ⟨m, hm, e⟩ := List.mem_map.1 hl
      exact ⟨m, List.mem_cons_of_mem _ hm, e⟩
  have hm := h m hm
  exact ⟨⟨⟨hm.predicate, hm.terms⟩, hm.proper⟩, hm.isPlain_fitted⟩

/-- A renamed clause has the key of the original. -/
theorem Renames.key_eq {c d : Clause W} (h : c.Renames d) : c.key = d.key := by
  obtain ⟨f, hf, hcopy⟩ := h
  have hnamed : ∀ v, c.VarsIn v → (f v).wildcard = false := fun v hv =>
    (hf.mapsTo hv : d.VarsIn (f v)).elim (fun h => h.1) (fun ⟨_, _, h⟩ => h.1)
  exact (hcopy.key hnamed (fun u v hu hv e => hf.injOn hu hv e) (fun _ hv => hv)).symm

variable [LawfulWeight W] {c d : Clause W}

/-- **Clauses that can be written have the same fingerprint exactly when they are the same** up to names of variables. -/
theorem fingerprint_eq_iff (hc : c.IsWritable) (hd : d.IsWritable) : c.fingerprint = d.fingerprint ↔ c.Same d := by
  have hfit : ∀ c : Clause W, c.fitted.fingerprint = c.fingerprint := fun c => (Prod.mk.inj c.key_fitted).2
  constructor
  · intro h
    rw [← hfit c, ← hfit d] at h
    have hforms := forms_eq_of_fingerprint_eq (fun l hl => (hc.fitted l hl).2) (fun l hl => (hd.fitted l hl).2) h
    rw [forms_eq (List.prefix_refl _), forms_eq (List.prefix_refl _)] at hforms
    exact renames_of_profiles c.isWellFormed_fitted d.isWellFormed_fitted
      (profiles_eq (fun l hl => (hc.fitted l hl).1) (fun l hl => (hd.fitted l hl).1) hforms)
  · intro h
    rw [← hfit c, ← hfit d]
    exact (Prod.mk.inj h.key_eq).2

theorem key_eq_iff_same (hc : c.IsWritable) (hd : d.IsWritable) : c.key = d.key ↔ c.Same d := by
  constructor
  · exact fun h => (fingerprint_eq_iff hc hd).1 (Prod.mk.inj h).2
  · intro h
    rw [← c.key_fitted, ← d.key_fitted]
    exact h.key_eq

end Clause
end Credence
