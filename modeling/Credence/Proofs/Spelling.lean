import Credence.Proofs.Wording
import Credence.Proofs.Wrapping
/-!
# Texts as constants

A constant prints as what the grammar reads as a number or as a word, and only such a constant does (`isWord_iff_term`).
So a text stands bare exactly when the grammar reads it that way and it does not begin like a wrap (`isBare_iff_term`),
and any text, as a constant, prints so that the constant is read back (`read_ofText`).
-/
namespace Credence

namespace Grammar

theorem breaks_nil (p : Char → Bool) : Breaks p [] := fun _ hc => (by cases hc)

/-- A number or a bare word of some text. -/
def Lexeme.Spells (s : String) : Lexeme → Prop
  | .number s' => s' = s
  | .word s'   => s' = s
  | _          => False

theorem spells_lexeme (c : Constant) : (Term.const c).lexeme.Spells c.printed := by
  rw [Term.lexeme]
  split <;> rfl

/-- What spells a constant is built to it. -/
theorem Lexeme.Spells.build {t : Lexeme} {c : Constant} (h : t.Spells c.printed) (scope : Scope) :
    Building.term t scope = .ok (.const c, scope) := by
  obtain ⟨s⟩ := c
  cases t with
  | number s' => obtain rfl : s' = s := h; rfl
  | word s'   => obtain rfl : s' = s := h; rfl
  | quoted | named | wildcard => cases h

end Grammar

namespace Constant

open Grammar

/-- **The grammar reads a constant's print as a number or a word exactly when it is one.** -/
theorem isWord_iff_term {c : Constant} :
    c.isWord = true ↔ ∃ t : Lexeme, t.Spells c.printed ∧ term c.printed.toList = some (t, []) := by
  constructor
  · intro h
    have hread := term_text (t := .const c) h (breaks_nil _)
    rw [List.append_nil] at hread
    exact ⟨_, spells_lexeme c, hread⟩
  · rintro ⟨t, hspells, hread⟩
    have hword := isSpelled_of_term hread
    obtain ⟨s⟩ := c
    cases t with
    | number s' => obtain rfl : s' = s := hspells; exact hword
    | word s'   => obtain rfl : s' = s := hspells; exact hword
    | quoted | named | wildcard => cases hspells

/-- **A text stands bare exactly when it is read as a number or a word and does not begin like a wrap.** -/
theorem isBare_iff_term {s : String} : isBare s = true ↔
    Text.startsWith wrapMark s = false ∧ ∃ t : Lexeme, t.Spells s ∧ term s.toList = some (t, []) := by
  have hbare : isBare s = (!Text.startsWith wrapMark s && (⟨s⟩ : Constant).isWord) := by
    unfold isBare isWord
    cases Text.startsWith wrapMark s <;> cases isNumber s.toList <;> rfl
  rw [hbare, Bool.and_eq_true, Bool.not_eq_true']
  exact and_congr_right' isWord_iff_term

theorem ofText_injective {s s' : String} (h : ofText s = ofText s') : s = s' := by
  rw [← text_ofText s, h, text_ofText]

/-- **Text constants survive printing.**  Any text, as a constant, is still that text, so no two texts make the same
constant.  What the constant prints as is read to its end as a number or a word, also where calls can stand, and built to
the same constant; and so it is in front of anything that does not go on with a character of a term. -/
theorem read_ofText (s : String) :
    (ofText s).text = s ∧ (∀ s', ofText s = ofText s' → s = s') ∧
    ∃ t : Lexeme, t.Spells (ofText s).printed ∧
      term (ofText s).printed.toList = some (t, []) ∧
      (∀ fuel, operand (fuel + 1) (ofText s).printed.toList = some (.term t, [])) ∧
      (∀ scope, Building.term t scope = .ok (.const (ofText s), scope)) ∧
      ∀ rest, Breaks isTermChar rest → term ((ofText s).printed.toList ++ rest) = some (t, rest) := by
  have hword : (Term.const (ofText s)).isSpelled = true := isWord_ofText s
  have hspells := spells_lexeme (ofText s)
  refine ⟨text_ofText s, fun _ => ofText_injective, _, hspells, ?_, fun fuel => ?_, hspells.build,
    fun rest hrest => term_text hword hrest⟩
  · have hread := term_text hword (breaks_nil _)
    rwa [List.append_nil] at hread
  · have hread := operand_text hword (breaks_nil _) rfl (Nat.succ_pos fuel)
    rwa [List.append_nil] at hread

/-- A text with a quote is wrapped, and its wrap is read in front of a parenthesis. -/
theorem read_ofText_wrapped : (ofText "Bob's").printed = "b64_Qm9iJ3M" ∧
    ∃ t : Lexeme, t.Spells "b64_Qm9iJ3M" ∧ term ("b64_Qm9iJ3M".toList ++ [')']) = some (t, [')']) := by
  have hprinted : (ofText "Bob's").printed = "b64_Qm9iJ3M" := by decide +kernel
  obtain ⟨-, -, t, hspells, -, -, -, hread⟩ := read_ofText "Bob's"
  have hread := hread [')'] (fun x hx => by cases hx; rfl)
  rw [hprinted] at hspells hread
  exact ⟨hprinted, t, hspells, hread⟩

end Constant
end Credence
