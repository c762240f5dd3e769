import Credence.Proofs.Renaming
import Mathlib.Data.Set.Function
/-!
# Numbering by first occurrence

A word of fixed letters and of variables is written with a number for each variable.  However the variables of two words
are numbered, words that come out the same are renamings of each other, one variable for one (`exists_renaming`).  The
number of first occurrence is the one that words which are renamings of each other agree on (`numbered_eq_iff`).
-/
namespace Credence

variable {κ α β : Type}

/-- The variables of a word. -/
def lettersOf (xs : List (κ ⊕ α)) : Set α := {a | .inr a ∈ xs}

theorem lettersOf_subset_cons (x : κ ⊕ α) (xs : List (κ ⊕ α)) : lettersOf xs ⊆ lettersOf (x :: xs) :=
  fun _ ha => List.mem_cons_of_mem x ha

/-- The word with another variable, or a number, for each variable. -/
def renamed (f : α → β) (xs : List (κ ⊕ α)) : List (κ ⊕ β) := xs.map (Sum.map id f)

theorem renamed_cons (f : α → β) (x : κ ⊕ α) (xs : List (κ ⊕ α)) : renamed f (x :: xs) = x.map id f :: renamed f xs := rfl

theorem lettersOf_renamed (f : α → β) (xs : List (κ ⊕ α)) : lettersOf (renamed f xs) = f '' lettersOf xs := by
  ext b
  simp [lettersOf, renamed]

/-! ## Words that are numbered alike -/

/-- **Variables with the same numbers are renamings of each other**, and the renaming respects the numbers. -/
theorem exists_renaming [Nonempty β] {A : Set α} {B : Set β} {m : α → Nat} {n : β → Nat} (hm : Set.InjOn m A)
    (hn : Set.InjOn n B) (himage : m '' A = n '' B) : ∃ f : α → β, Set.BijOn f A B ∧ ∀ a ∈ A, n (f a) = m a := by
  have hB : Set.BijOn n B (n '' B) := hn.bijOn_image
  have hback : Set.BijOn (Function.invFunOn n B) (n '' B) B := hB.symm hB.invOn_invFunOn.symm
  refine ⟨Function.invFunOn n B ∘ m, hback.comp (himage ▸ hm.bijOn_image), fun a ha => ?_⟩
  obtain ⟨b, hb, hba⟩ : m a ∈ n '' B := himage ▸ Set.mem_image_of_mem m ha
  show n (Function.invFunOn n B (m a)) = m a
  exact Function.invFunOn_eq ⟨b, hb, hba⟩

/-- A renaming that respects the numbers turns the one word into the other. -/
theorem eq_renamed_of_numbers {f : α → β} {m : α → Nat} {n : β → Nat} {B : Set β} (hn : Set.InjOn n B) :
    ∀ {xs : List (κ ⊕ α)} {ys : List (κ ⊕ β)}, (∀ a ∈ lettersOf xs, f a ∈ B ∧ n (f a) = m a) → lettersOf ys ⊆ B →
      renamed m xs = renamed n ys → ys = renamed f xs
  | [], [], _, _, _ => rfl
  | x :: xs, y :: ys, hf, hB, h => by
    obtain ⟨hxy, hrest⟩ := List.cons.inj h
    have ih := eq_renamed_of_numbers hn (fun a ha => hf a (lettersOf_subset_cons x xs ha))
      ((lettersOf_subset_cons y ys).trans hB) hrest
    refine List.cons_eq_cons.2 ⟨?_, ih⟩
    cases x with
    | inl k =>
      cases y with
      | inl l => exact congrArg Sum.inl (Sum.inl.inj hxy).symm
      | inr b => cases hxy
    | inr a =>
      cases y with
      | inl l => cases hxy
      | inr b =>
        obtain ⟨hfa, hna⟩ := hf a List.mem_cons_self
        have hba : n b = n (f a) := by rw [hna]; exact (Sum.inr.inj hxy).symm
        exact congrArg Sum.inr (hn (hB List.mem_cons_self) hfa hba)

/-! ## First occurrences -/

section Firsts

variable [DecidableEq α] [DecidableEq β]

/-- The variables of a word in the order of first occurrence, behind those that were seen before. -/
def firsts : List α → List (κ ⊕ α) → List α
  | seen, []           => seen
  | seen, .inl _ :: xs => firsts seen xs
  | seen, .inr a :: xs => firsts (if a ∈ seen then seen else seen ++ [a]) xs

theorem firsts_append : ∀ (seen : List α) (xs ys : List (κ ⊕ α)), firsts seen (xs ++ ys) = firsts (firsts seen xs) ys
  | _, [], _ => rfl
  | seen, .inl _ :: xs, ys => firsts_append seen xs ys
  | _, .inr _ :: xs, ys => firsts_append _ xs ys

/-- What was seen stays in its place. -/
theorem prefix_firsts : ∀ (seen : List α) (xs : List (κ ⊕ α)), seen <+: firsts seen xs
  | seen, [] => List.prefix_refl seen
  | seen, .inl _ :: xs => prefix_firsts seen xs
  | seen, .inr a :: xs => by
    refine List.IsPrefix.trans ?_ (prefix_firsts (if a ∈ seen then seen else seen ++ [a]) xs)
    split
    · exact List.prefix_refl seen
    · exact List.prefix_append seen [a]

theorem mem_firsts {b : α} : ∀ {seen : List α} {xs : List (κ ⊕ α)}, b ∈ firsts seen xs ↔ b ∈ seen ∨ b ∈ lettersOf xs
  | seen, [] => by simp [firsts, lettersOf]
  | seen, .inl _ :: xs => by
    rw [firsts, mem_firsts]
    simp [lettersOf]
  | seen, .inr a :: xs => by
    have hstep : b ∈ (if a ∈ seen then seen else seen ++ [a]) ↔ b ∈ seen ∨ b = a := by
      by_cases ha : a ∈ seen
      · rw [if_pos ha]
        exact ⟨.inl, fun h => h.elim (fun hb => hb) (fun hb => hb ▸ ha)⟩
      · rw [if_neg ha, List.mem_append, List.mem_singleton]
    rw [firsts, mem_firsts, hstep]
    simp [lettersOf, or_assoc]

/-- The number of a variable is settled when it is first met. -/
theorem idxOf_firsts {a : α} {seen : List α} (ha : a ∈ seen) (xs : List (κ ⊕ α)) :
    (firsts seen xs).idxOf a = seen.idxOf a := by
  obtain ⟨more, hmore⟩ := prefix_firsts seen xs
  rw [← hmore, List.idxOf_append_of_mem ha]

/-- Numbers tell the variables of a list apart. -/
theorem injOn_idxOf (l : List α) : Set.InjOn l.idxOf {a | a ∈ l} := fun _ ha _ _ h => (List.idxOf_inj ha).1 h

/-- The word with variables numbered by first occurrence. -/
def numbered (xs : List (κ ⊕ α)) : List (κ ⊕ Nat) := renamed (firsts [] xs).idxOf xs

theorem injOn_numbers (xs : List (κ ⊕ α)) : Set.InjOn (firsts [] xs).idxOf (lettersOf xs) :=
  (injOn_idxOf _).mono (fun _ ha => mem_firsts.2 (.inr ha))

theorem firsts_renamed {f : α → β} : ∀ {seen : List α} {xs : List (κ ⊕ α)},
    Set.InjOn f {a | a ∈ seen ∨ a ∈ lettersOf xs} → firsts (seen.map f) (renamed f xs) = (firsts seen xs).map f
  | _, [], _ => rfl
  | seen, .inl k :: xs, hf => by
    have hsub : {a | a ∈ seen ∨ a ∈ lettersOf xs} ⊆ {a | a ∈ seen ∨ a ∈ lettersOf (.inl k :: xs)} :=
      fun _ ha => ha.imp_right (fun h => lettersOf_subset_cons (.inl k) xs h)
    have ih : firsts (seen.map f) (renamed f xs) = (firsts seen xs).map f := firsts_renamed (hf.mono hsub)
    exact ih
  | seen, .inr a :: xs, hf => by
    have hmem : f a ∈ seen.map f ↔ a ∈ seen := by
      constructor
      · intro h
        obtain ⟨b, hb, hba⟩ := List.mem_map.1 h
        exact hf (.inl hb) (.inr List.mem_cons_self) hba ▸ hb
      · exact List.mem_map_of_mem
    have hstep : (if f a ∈ seen.map f then seen.map f else seen.map f ++ [f a]) =
        (if a ∈ seen then seen else seen ++ [a]).map f := by
      by_cases ha : a ∈ seen
      · rw [if_pos ha, if_pos (hmem.2 ha)]
      · rw [if_neg ha, if_neg (fun h => ha (hmem.1 h)), List.map_append, List.map_singleton]
    show firsts (if f a ∈ seen.map f then seen.map f else seen.map f ++ [f a]) (renamed f xs) = _
    rw [hstep, firsts_renamed]
    · rfl
    · refine hf.mono (fun b hb => ?_)
      rcases hb with hb | hb
      · by_cases ha : a ∈ seen
        · exact .inl (by rwa [if_pos ha] at hb)
        · rw [if_neg ha, List.mem_append, List.mem_singleton] at hb
          exact hb.imp_right (fun e : b = a => e ▸ List.mem_cons_self)
      · exact .inr (lettersOf_subset_cons (.inr a) xs hb)

/-- **Words agree on the numbers of first occurrence exactly when one is the other renamed, one variable for one.** -/
theorem numbered_eq_iff [Nonempty β] {xs : List (κ ⊕ α)} {ys : List (κ ⊕ β)} :
    numbered xs = numbered ys ↔ ∃ f : α → β, Set.BijOn f (lettersOf xs) (lettersOf ys) ∧ ys = renamed f xs := by
  constructor
  · intro h
    have himage : (firsts [] xs).idxOf '' lettersOf xs = (firsts [] ys).idxOf '' lettersOf ys := by
      rw [← lettersOf_renamed, ← lettersOf_renamed]
      exact congrArg lettersOf h
    obtain ⟨f, hf, hnumber⟩ := exists_renaming (injOn_numbers xs) (injOn_numbers ys) himage
    exact ⟨f, hf, eq_renamed_of_numbers (injOn_numbers ys) (fun a ha => ⟨hf.mapsTo ha, hnumber a ha⟩) (fun _ hb => hb) h⟩
  · rintro ⟨f, hf, rfl⟩
    have hinj : Set.InjOn f {a | a ∈ ([] : List α) ∨ a ∈ lettersOf xs} :=
      hf.injOn.mono (fun a ha => ha.resolve_left (fun h => nomatch h))
    have hfirsts : firsts [] (renamed f xs) = (firsts [] xs).map f := firsts_renamed hinj
    rw [numbered, numbered, hfirsts, renamed, renamed, renamed, List.map_map]
    refine List.map_congr_left (fun x hx => ?_)
    cases x with
    | inl k => rfl
    | inr a =>
      have ha : a ∈ lettersOf xs := hx
      refine congrArg Sum.inr (idxOf_map (fun b hb e => ?_)).symm
      exact hf.injOn ((mem_firsts.1 hb).resolve_left (fun h => nomatch h)) ha e

end Firsts

end Credence
