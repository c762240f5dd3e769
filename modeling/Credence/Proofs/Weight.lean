import Credence.Proofs.Text
import Credence.Weight
import Mathlib.Data.Rat.Floor
import Mathlib.Algebra.Order.Field.Rat
/-!
# Weights that can be reasoned about

What the engine relies on of the numbers it carries: one weight stands for certainty, and the printed form tells proper
weights apart and holds none of the marks of a clause.  The doubles that a program runs on are such weights
(`Credence.Proofs.Doubles`), and so are the rational numbers, whose arithmetic is exact.
-/
namespace Credence

/-- **The laws of weights.** -/
class LawfulWeight (W : Type) [Weight W] : Prop where
  isCertain_iff : ∀ w : W, Weight.isCertain w = true ↔ w = 1
  isProper_one  : Weight.isProper (1 : W) = true
  text_inj      : ∀ v w : W, Weight.isProper v = true → Weight.isProper w = true → Weight.text v = Weight.text w → v = w
  text_plain    : ∀ w : W, ∀ c ∈ (Weight.text w).toList, c ≠ ',' ∧ c ≠ '(' ∧ c ≠ ')' ∧ c ≠ ':'

/-! ## Rational weights -/

namespace Rational

/-- To the nearest multiple of the last decimal; a half goes away from zero. -/
def roundTo (digits : Nat) (x : ℚ) : ℚ :=
  let scale : ℚ := ((10 ^ digits : ℕ) : ℚ)
  if 0 ≤ x then (⌊x * scale + 1 / 2⌋ : ℚ) / scale else -((⌊-x * scale + 1 / 2⌋ : ℚ) / scale)

/-- Sign, numerator and denominator. -/
def text (x : ℚ) : String :=
  (if x.num < 0 then "-" else "+") ++ toString x.num.natAbs ++ "/" ++ toString x.den

/-- The value of a decimal text, without rounding. -/
def ofScientific (s : Decimal.Scientific) : ℚ :=
  (Decimal.ofDigits (s.whole ++ s.fraction) : ℚ) * (10 : ℚ) ^ (s.exponent - s.fraction.length)

def read? (s : String) : Option ℚ :=
  let (negative, cs) := Decimal.takeSign s.toList
  (Decimal.readScientific? cs).map (fun d => if negative then -ofScientific d else ofScientific d)

end Rational

instance : Weight ℚ where
  isCertain x := x = 1
  isProper x := 0 < x ∧ x ≤ 1
  isZero x := x = 0
  same x y := x = y
  round := Rational.roundTo
  text := Rational.text
  read? := Rational.read?

namespace Rational

theorem toList_text (x : ℚ) : (text x).toList =
    (if x.num < 0 then '-' else '+') :: (toString x.num.natAbs).toList ++ '/' :: (toString x.den).toList := by
  unfold text
  split <;> simp [String.toList_append]

/-- The text of a rational number is the number. -/
theorem text_injective {x y : ℚ} (h : text x = text y) : x = y := by
  have h' := congrArg String.toList h
  rw [toList_text, toList_text] at h'
  have hmark : ∀ z : ℚ, '/' ∉ (if z.num < 0 then '-' else '+') :: (toString z.num.natAbs).toList := by
    intro z hz
    rcases List.mem_cons.1 hz with hz | hz
    · split at hz <;> exact absurd hz (by decide)
    · exact Text.not_mem_toString (by decide) hz
  obtain ⟨h1, h2⟩ := Text.split_at_mark (hmark x) (hmark y) h'
  have hden := Text.toString_nat_inj (String.toList_injective h2)
  injection h1 with hsign habs
  have habs := Text.toString_nat_inj (String.toList_injective habs)
  refine Rat.ext ?_ hden
  split at hsign <;> split at hsign
  · omega
  · exact absurd hsign (by decide)
  · exact absurd hsign (by decide)
  · omega

theorem text_plain (x : ℚ) : ∀ c ∈ (text x).toList, c ≠ ',' ∧ c ≠ '(' ∧ c ≠ ')' ∧ c ≠ ':' := by
  intro c hc
  rw [toList_text] at hc
  have hdigit : c.isDigit = true → c ≠ ',' ∧ c ≠ '(' ∧ c ≠ ')' ∧ c ≠ ':' := by
    intro hd
    refine ⟨?_, ?_, ?_, ?_⟩ <;> (rintro rfl; exact absurd hd (by decide))
  simp only [List.cons_append, List.mem_cons, List.mem_append] at hc
  rcases hc with hc | hc | hc | hc
  · split at hc <;> subst hc <;> decide
  · exact hdigit (Text.isDigit_of_mem_toString hc)
  · subst hc; decide
  · exact hdigit (Text.isDigit_of_mem_toString hc)

end Rational

instance : LawfulWeight ℚ where
  isCertain_iff w := by simp [Weight.isCertain]
  isProper_one := by simp [Weight.isProper]
  text_inj v w _ _ h := Rational.text_injective h
  text_plain w := Rational.text_plain w

end Credence
