import Credence.Text.Blank
import Mathlib.Data.List.Basic
/-!
# Texts that can be taken apart

A text built with a mark between its parts can be taken apart again where the mark does not occur in the parts.  The
forms that literals and clauses are known by are all built that way.
-/
namespace Credence
namespace Text

/-- **A mark that is not in the first part ends it.** -/
theorem split_at_mark {mark : Char} : ∀ {xs xs' ys ys' : List Char}, mark ∉ xs → mark ∉ xs' →
    xs ++ mark :: ys = xs' ++ mark :: ys' → xs = xs' ∧ ys = ys'
  | [], [], ys, ys', _, _, h => by simpa using h
  | [], x' :: xs', ys, ys', _, h', h => by
    injection h with hx
    exact absurd (hx ▸ List.mem_cons_self) h'
  | x :: xs, [], ys, ys', h', _, h => by
    injection h with hx
    exact absurd (hx ▸ List.mem_cons_self) h'
  | x :: xs, x' :: xs', ys, ys', hx, hx', h => by
    injection h with e h
    obtain ⟨rfl, rfl⟩ := split_at_mark (fun m => hx (List.mem_cons_of_mem _ m))
      (fun m => hx' (List.mem_cons_of_mem _ m)) h
    exact ⟨by rw [e], rfl⟩

/-- A mark that is not in the last part starts it. -/
theorem split_at_last_mark {mark : Char} {xs xs' ys ys' : List Char} (h : mark ∉ ys) (h' : mark ∉ ys')
    (e : xs ++ mark :: ys = xs' ++ mark :: ys') : xs = xs' ∧ ys = ys' := by
  have e' := congrArg List.reverse e
  simp only [List.reverse_append, List.reverse_cons, List.append_assoc, List.singleton_append] at e'
  obtain ⟨h1, h2⟩ := split_at_mark (by simpa using h) (by simpa using h') e'
  exact ⟨List.reverse_injective h2, List.reverse_injective h1⟩

/-- A text with a mark in it is no text without one. -/
theorem ne_of_mark {mark : Char} {xs ys zs : List Char} (h : mark ∉ zs) : xs ++ mark :: ys ≠ zs := by
  intro e
  exact h (e ▸ by simp)

/-- The texts of a list with a mark between each two are known from the whole. -/
theorem intercalate_inj {mark : Char} : ∀ {as bs : List String}, (∀ a ∈ as, mark ∉ a.toList) →
    (∀ b ∈ bs, mark ∉ b.toList) → as ≠ [] → bs ≠ [] →
    String.intercalate (String.singleton mark) as = String.intercalate (String.singleton mark) bs → as = bs
  | [a], [b], _, _, _, _, h => by simpa using h
  | [a], b :: b' :: bs, ha, _, _, _, h => by
    exfalso
    have h' := congrArg String.toList h
    simp only [String.intercalate_singleton, String.intercalate_cons_cons, String.toList_append,
      String.toList_singleton, List.append_assoc, List.singleton_append] at h'
    exact ne_of_mark (ha a List.mem_cons_self) h'.symm
  | a :: a' :: as, [b], _, hb, _, _, h => by
    exfalso
    have h' := congrArg String.toList h
    simp only [String.intercalate_singleton, String.intercalate_cons_cons, String.toList_append,
      String.toList_singleton, List.append_assoc, List.singleton_append] at h'
    exact ne_of_mark (hb b List.mem_cons_self) h'
  | a :: a' :: as, b :: b' :: bs, ha, hb, _, _, h => by
    have h' := congrArg String.toList h
    simp only [String.intercalate_cons_cons, String.toList_append, String.toList_singleton, List.append_assoc,
      List.singleton_append] at h'
    obtain ⟨h1, h2⟩ := split_at_mark (ha a List.mem_cons_self) (hb b List.mem_cons_self) h'
    have ih := intercalate_inj (fun x hx => ha x (List.mem_cons_of_mem _ hx))
      (fun x hx => hb x (List.mem_cons_of_mem _ hx)) (by simp) (by simp) (String.toList_injective h2)
    rw [String.toList_injective h1, ih]

/-- The characters of a joined text are those of its parts and of what stands between them. -/
theorem mem_intercalate {sep : String} {c : Char} : ∀ {as : List String}, c ∈ (String.intercalate sep as).toList →
    (∃ a ∈ as, c ∈ a.toList) ∨ c ∈ sep.toList
  | [], h => by simp at h
  | [a], h => .inl ⟨a, List.mem_cons_self, by simpa using h⟩
  | a :: a' :: as, h => by
    simp only [String.intercalate_cons_cons, String.toList_append, List.mem_append] at h
    rcases h with (h | h) | h
    · exact .inl ⟨a, List.mem_cons_self, h⟩
    · exact .inr h
    · rcases mem_intercalate h with ⟨x, hx, hc⟩ | h
      · exact .inl ⟨x, List.mem_cons_of_mem _ hx, hc⟩
      · exact .inr h

/-- The last of some texts ends the whole. -/
theorem exists_intercalate_append (sep b : String) : ∀ as : List String,
    ∃ lead, String.intercalate sep (as ++ [b]) = lead ++ b
  | []            => ⟨"", by simp⟩
  | [a]           => ⟨a ++ sep, by simp [String.intercalate_cons_cons]⟩
  | a :: a' :: as => by
    obtain ⟨lead, h⟩ := exists_intercalate_append sep b (a' :: as)
    refine ⟨a ++ sep ++ lead, ?_⟩
    rw [List.cons_append] at h
    rw [List.cons_append, List.cons_append, String.intercalate_cons_cons, h]
    simp only [String.append_assoc]

/-! ## Digits -/

theorem toString_nat_inj {m n : Nat} (h : toString m = toString n) : m = n := by
  have h' := congrArg String.toList h
  rw [Nat.toString_eq_repr, Nat.toString_eq_repr, Nat.repr_eq_ofList_toDigits, Nat.repr_eq_ofList_toDigits,
    String.toList_ofList, String.toList_ofList] at h'
  rw [← Nat.ofDigitChars_ten_toDigits (n := m), ← Nat.ofDigitChars_ten_toDigits (n := n), h']

theorem isDigit_of_mem_toString {n : Nat} {c : Char} (h : c ∈ (toString n).toList) : c.isDigit = true := by
  rw [Nat.toString_eq_repr, Nat.repr_eq_ofList_toDigits, String.toList_ofList] at h
  exact Nat.isDigit_of_mem_toDigits (by decide) (by decide) h

/-- A character that is no digit is not in a printed number. -/
theorem not_mem_toString {n : Nat} {c : Char} (h : c.isDigit = false) : c ∉ (toString n).toList := by
  intro hc
  rw [isDigit_of_mem_toString hc] at h
  cases h

/-! ## Leading texts -/

theorem startsWith_iff {lead s : String} : startsWith lead s = true ↔ ∃ t, s = lead ++ t := by
  rw [startsWith, List.isPrefixOf_iff_prefix]
  constructor
  · rintro ⟨t, ht⟩
    exact ⟨String.ofList t, String.toList_injective (by simp [← ht])⟩
  · rintro ⟨t, rfl⟩
    exact ⟨t.toList, by simp⟩

theorem after?_append (lead t : String) : after? lead (lead ++ t) = some t := by
  have h : ∀ xs ys : List Char, xs.isPrefixOf? (xs ++ ys) = some ys := by
    intro xs ys
    induction xs with
    | nil => simp [List.isPrefixOf?]
    | cons x xs ih => simp [List.isPrefixOf?, ih]
  rw [after?, String.toList_append, h]
  simp

theorem after?_eq_none {lead s : String} (h : startsWith lead s = false) : after? lead s = none := by
  rw [after?, Option.map_eq_none_iff]
  have key : ∀ xs ys : List Char, xs.isPrefixOf ys = false → xs.isPrefixOf? ys = none := by
    intro xs ys
    induction xs generalizing ys with
    | nil => simp
    | cons x xs ih =>
      cases ys with
      | nil => simp [List.isPrefixOf?]
      | cons y ys =>
        intro h'
        rw [List.isPrefixOf?]
        split
        · rename_i he
          exact ih ys (by simpa [List.isPrefixOf, he] using h')
        · rfl
  exact key _ _ h

end Text
end Credence
