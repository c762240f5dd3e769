import Credence.Proofs.Backing
import Credence.Proofs.Reading
/-!
# Results of primitives

What a built-in primitive makes of plain constants is plain, be it a truth value, a number in digits, or a text that is
wrapped when it cannot stand bare (`Builtin.isPlain_of_call`).  When the extensions of a program keep to that as well,
every answer of a primitive literal is written in plain constants (`Query.isPlain_of_answers`).
-/
namespace Credence

/-! ## Numbers -/

namespace Decimal

/-- A digit or the point. -/
def IsNumeral (c : Char) : Prop := c.isDigit = true ∨ c = '.'

theorem isNumeral_zeros {n : Nat} {c : Char} (h : c ∈ zeros n) : IsNumeral c := by
  rw [zeros, List.mem_replicate] at h
  exact .inl (h.2 ▸ rfl)

theorem isDigit_ofGrid (n places : Nat) (point : Int) : ∀ c ∈ (Digits.ofGrid n places point).digits, c.isDigit = true := by
  intro c hc
  simp only [Digits.ofGrid, dropTrailingZeros, List.mem_reverse] at hc
  have hmem := List.mem_reverse.1 ((List.dropWhile_suffix _).subset hc)
  exact Nat.isDigit_of_mem_toDigits (by decide) (by decide) hmem

theorem isDigit_searchGrids {tie : Tie} {s : Span} {d : Nat} {point : Int} : ∀ {tries places : Nat} {r : Digits},
    searchGrids tie s d point tries places = some r → ∀ c ∈ r.digits, c.isDigit = true
  | 0,         _,      _, h => by cases h
  | tries + 1, places, r, h => by
    simp only [searchGrids] at h
    split at h
    · injection h with h
      exact h ▸ isDigit_ofGrid _ _ _
    · exact isDigit_searchGrids h

theorem isDigit_shortest (tie : Tie) (b : Binary) : ∀ c ∈ (shortest tie b).digits, c.isDigit = true := by
  unfold shortest
  dsimp only
  cases h : searchGrids tie b.span.1 b.span.2 (pointOf b.span.1.value b.span.2) 17 1 with
  | some r => exact isDigit_searchGrids h
  | none => exact fun c hc => List.mem_singleton.1 hc ▸ rfl

theorem positional_spec {d : Digits} (h : ∀ c ∈ d.digits, c.isDigit = true) :
    d.positional ≠ [] ∧ ∀ c ∈ d.positional, IsNumeral c := by
  have hdigit : ∀ c ∈ d.digits, IsNumeral c := fun c hc => .inl (h c hc)
  unfold Digits.positional
  split
  · refine ⟨by simp, fun c hc => ?_⟩
    rcases List.mem_cons.1 hc with rfl | hc
    · exact .inl rfl
    · rcases List.mem_cons.1 hc with rfl | hc
      · exact .inr rfl
      · exact (List.mem_append.1 hc).elim isNumeral_zeros (hdigit c)
  · split
    · rename_i hpoint hlen
      refine ⟨fun e => ?_, fun c hc => (List.mem_append.1 hc).elim (hdigit c) isNumeral_zeros⟩
      have hempty := congrArg List.length e
      rw [List.length_append, zeros, List.length_replicate, List.length_nil] at hempty
      omega
    · refine ⟨by simp, fun c hc => ?_⟩
      rcases List.mem_append.1 hc with hc | hc
      · exact hdigit c (List.mem_of_mem_take hc)
      · rcases List.mem_cons.1 hc with rfl | hc
        · exact .inr rfl
        · exact hdigit c (List.mem_of_mem_drop hc)

end Decimal

namespace Constant

open Decimal

/-- What may stand anywhere in a plain constant. -/
def isInner (c : Char) : Bool := (isWordChar c || c == '.') && c != '_'

theorem isInner_of_isNumeral {c : Char} (h : IsNumeral c) : isInner c = true := by
  rcases h with h | rfl
  · have hne : c ≠ '_' := fun e => by rw [e] at h; exact absurd h (by decide)
    simp [isInner, isWordChar_of_isDigit h, hne]
  · rfl

theorem isPlain_of_inner {cs : List Char} (hne : cs ≠ []) (h : cs.all isInner = true) :
    (⟨String.ofList cs⟩ : Constant).isPlain = true := by
  rw [isPlain_iff]
  obtain ⟨x, xs, rfl⟩ := List.exists_cons_of_ne_nil hne
  have hall : ∀ y ∈ x :: xs, (isWordChar y = true ∨ y = '.') ∧ y ≠ '_' := fun y hy => by
    simpa [isInner] using List.all_eq_true.1 h y hy
  exact ⟨x, xs, String.toList_ofList, (hall x List.mem_cons_self).2, fun y hy => (hall y hy).1⟩

theorem isPlain_signed (negative : Bool) {cs : List Char} (hne : cs ≠ []) (h : cs.all isInner = true) :
    (⟨signed negative cs⟩ : Constant).isPlain = true := by
  cases negative with
  | false => exact isPlain_of_inner hne h
  | true =>
    have hminus : ('-' :: cs).all isInner = true := by
      rw [List.all_cons, h]
      rfl
    exact isPlain_of_inner (List.cons_ne_nil '-' cs) hminus

theorem isPlain_plain (x : Float) : (⟨Decimal.plain x⟩ : Constant).isPlain = true := by
  unfold Decimal.plain
  split
  · decide
  · exact isPlain_signed _ (List.cons_ne_nil _ _) rfl
  · split
    · exact isPlain_signed _ (List.cons_ne_nil _ _) rfl
    · rename_i sign b _ _
      obtain ⟨hne, h⟩ := positional_spec (isDigit_shortest .upward b)
      exact isPlain_signed _ hne (List.all_eq_true.2 (fun c hc => isInner_of_isNumeral (h c hc)))

theorem isPlain_ofInt (n : Int) : (ofInt n).isPlain = true := by
  have hdigits : ∀ m : Nat, (Nat.toDigits 10 m).all isInner = true := fun m => List.all_eq_true.2 (fun c hc =>
    isInner_of_isNumeral (.inl (Nat.isDigit_of_mem_toDigits (by decide) (by decide) hc)))
  cases n with
  | ofNat m =>
    show (⟨Nat.repr m⟩ : Constant).isPlain = true
    rw [Nat.repr_eq_ofList_toDigits]
    exact isPlain_signed false Nat.toDigits_ne_nil (hdigits m)
  | negSucc m =>
    have hsigned : "-" ++ Nat.repr (m + 1) = signed true (Nat.toDigits 10 (m + 1)) := by
      rw [Nat.repr_eq_ofList_toDigits]
      exact String.toList_injective (by simp [signed])
    show (⟨"-" ++ Nat.repr (m + 1)⟩ : Constant).isPlain = true
    rw [hsigned]
    exact isPlain_signed true Nat.toDigits_ne_nil (hdigits (m + 1))

theorem isPlain_ofBool (b : Bool) : (ofBool b).isPlain = true := by cases b <;> decide

theorem isPlain_ofFloat (x : Float) : (ofFloat x).isPlain = true := by
  unfold ofFloat
  split
  · exact isPlain_ofInt _
  · exact isPlain_plain x

end Constant

/-! ## Calls -/

/-- Every result is plain. -/
def Output.IsPlain (out : Output) : Prop := ∀ c ∈ Run.outputs out, c.isPlain = true

namespace Builtin

theorem isPlain_one {c : Constant} (h : c.isPlain = true) : (Output.one c).IsPlain := fun d hd => by
  rw [List.mem_singleton.1 hd]
  exact h

theorem isPlain_many {α : Type} {f : α → Constant} (h : ∀ a, (f a).isPlain = true) (as : List α) :
    (Output.many (as.map f)).IsPlain := fun d hd => by
  obtain ⟨a, -, rfl⟩ := List.mem_map.1 hd
  exact h a

theorem one_eq {b : Builtin} {args : List Constant} {c : Constant} (h : b.one args = .ok c) : args = [c] := by
  unfold one at h
  split at h
  · injection h with h
    rw [h]
  · cases h

theorem bind_eq_ok {α β : Type} {x : Except CallError α} {f : α → Except CallError β} {b : β} (h : x >>= f = .ok b) :
    ∃ a, x = .ok a ∧ f a = .ok b := by
  cases x with
  | error e => cases h
  | ok a => exact ⟨a, rfl, h⟩

theorem map_eq_ok {α β : Type} {x : Except CallError α} {f : α → β} {b : β} (h : x.map f = .ok b) :
    ∃ a, x = .ok a ∧ f a = b := by
  cases x with
  | error e => cases h
  | ok a =>
    injection h with h
    exact ⟨a, rfl, h⟩

/-- **Built-in primitives keep to plain constants.** -/
theorem isPlain_of_call {b : Builtin} {args : List Constant} (hargs : ∀ c ∈ args, c.isPlain = true) {out : Output}
    (h : b.call args = .ok out) : out.IsPlain := by
  cases b with
  | isTrue | isFalse =>
    obtain ⟨c, -, h⟩ := bind_eq_ok h
    obtain ⟨x, -, h⟩ := bind_eq_ok h
    injection h with h
    exact h ▸ isPlain_one (Constant.isPlain_ofBool _)
  | eq | lt | lte | gt | gte =>
    obtain ⟨x, -, rfl⟩ := map_eq_ok h
    exact isPlain_one (Constant.isPlain_ofBool _)
  | add | mul =>
    simp only [call, fold] at h
    split at h
    · cases h
    · obtain ⟨xs, -, h⟩ := bind_eq_ok h
      injection h with h
      exact h ▸ isPlain_one (Constant.isPlain_ofFloat _)
  | sub =>
    obtain ⟨x, -, h⟩ := bind_eq_ok h
    injection h with h
    exact h ▸ isPlain_one (Constant.isPlain_ofFloat _)
  | div =>
    obtain ⟨x, -, h⟩ := bind_eq_ok h
    dsimp only at h
    split at h
    · cases h
    · injection h with h
      exact h ▸ isPlain_one (Constant.isPlain_ofFloat _)
  | identity =>
    obtain ⟨x, hx, rfl⟩ := map_eq_ok h
    exact isPlain_one (hargs x (by rw [one_eq hx]; exact List.mem_cons_self))
  | concat =>
    injection h with h
    exact h ▸ isPlain_one (Constant.isPlain_ofText _)
  | lower | upper =>
    obtain ⟨x, -, h⟩ := bind_eq_ok h
    injection h with h
    exact h ▸ isPlain_one (Constant.isPlain_ofText _)
  | strlen =>
    obtain ⟨x, -, h⟩ := bind_eq_ok h
    injection h with h
    exact h ▸ isPlain_one (Constant.isPlain_ofInt _)
  | toInt | toDecimal =>
    obtain ⟨x, -, h⟩ := bind_eq_ok h
    obtain ⟨y, -, h⟩ := bind_eq_ok h
    injection h with h
    exact h ▸ isPlain_one (Constant.isPlain_ofFloat _)
  | dateDiffDays =>
    obtain ⟨x, -, h⟩ := bind_eq_ok h
    obtain ⟨first, -, h⟩ := bind_eq_ok h
    obtain ⟨last, -, h⟩ := bind_eq_ok h
    injection h with h
    exact h ▸ isPlain_one (Constant.isPlain_ofInt _)
  | split =>
    obtain ⟨x, -, h⟩ := bind_eq_ok h
    dsimp only at h
    split at h
    · cases h
    · injection h with h
      exact h ▸ isPlain_many Constant.isPlain_ofText _
  | range =>
    obtain ⟨x, -, h⟩ := bind_eq_ok h
    obtain ⟨first, -, h⟩ := bind_eq_ok h
    obtain ⟨last, -, h⟩ := bind_eq_ok h
    injection h with h
    exact h ▸ isPlain_many Constant.isPlain_ofInt _

end Builtin

namespace Registry

/-- The extensions, too, make plain constants of plain ones. -/
def IsPlain (r : Registry) : Prop :=
  ∀ e ∈ r.extensions, ∀ args : List Constant, (∀ c ∈ args, c.isPlain = true) → ∀ out, e.call args = .ok out → out.IsPlain

theorem isPlain_empty : Registry.empty.IsPlain := nofun

theorem IsPlain.call {r : Registry} (h : r.IsPlain) {name : String} {args : List Constant}
    (hargs : ∀ c ∈ args, c.isPlain = true) {out : Output} (hcall : r.call name args = .ok out) : out.IsPlain := by
  unfold Registry.call at hcall
  split at hcall
  · exact Builtin.isPlain_of_call hargs hcall
  · split at hcall
    · rename_i e he
      exact h e (List.mem_of_find?_eq_some he) args hargs out hcall
    · cases hcall

end Registry

/-! ## Answers -/

/-- **Primitive literals in plain constants are answered in plain constants.** -/
theorem Query.isPlain_of_answers {W : Type} [Weight W] {q : Query W} (hreg : q.kb.registry.IsPlain) {l : Literal W}
    (hl : ∀ c, Term.const c ∈ l.terms → c.isPlain = true) {m : Literal W} (hm : m ∈ q.answers l) :
    ∀ c, Term.const c ∈ m.terms → c.isPlain = true := by
  unfold Query.answers at hm
  split at hm
  · cases hm
  · split at hm
    · rename_i name _ _ out hcall
      have hins : ∀ c, Term.const c ∈ Run.inputs (q.kb.registry.kind name) l → c.isPlain = true := by
        intro c hc
        unfold Run.inputs at hc
        split at hc
        · exact hl c (List.mem_of_mem_drop hc)
        · exact hl c hc
      have hout : out.IsPlain := by
        obtain ⟨args, hargs, hcall⟩ := Run.of_callPrimitive hcall
        refine hreg.call (fun c hc => hins c ?_) hcall
        rw [hargs]
        exact List.mem_map_of_mem hc
      unfold Run.instances at hm
      split at hm
      · split at hm
        · rw [List.mem_singleton.1 hm]
          exact hl
        · cases hm
      · rename_i hkind
        obtain ⟨c, hc, h⟩ := List.mem_filterMap.1 hm
        dsimp only at h
        split at h
        · injection h with h
          subst h
          intro d hd
          rcases List.mem_cons.1 hd with e | hd
          · injection e with e
            exact e ▸ hout c hc
          · exact hins d (hkind ▸ hd)
        · cases h
    · cases hm

end Credence
