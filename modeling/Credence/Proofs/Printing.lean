import Credence.Decimal.Layout
import Credence.Decimal.Read
import Credence.Proofs.Rounding
import Mathlib.Data.List.TakeWhile
import Mathlib.Data.Nat.Cast.Order.Field
/-!
# The shortest decimal reads back

The shortest decimal of a double is looked for on finer and finer decimal grids.  A grid of seventeen digits is finer than
the interval that rounds to the double is wide, so there is a hit (`shortest_near`).  What is written of it, without an
exponent, is read as the same decimal, and so as the double (`readScientific?_shortest`).
-/
namespace Credence
namespace Decimal

/-! ## Digits as numbers -/

theorem ofDigits_append (cs ds : List Char) : ofDigits (cs ++ ds) = Nat.ofDigitChars 10 ds (ofDigits cs) :=
  Nat.ofDigitChars_append 0

theorem ofDigits_zeros_append (k : Nat) (cs : List Char) : ofDigits (zeros k ++ cs) = ofDigits cs := by
  have hzeros : ofDigits (zeros k) = 0 := Nat.ofDigitChars_replicate_zero.trans (Nat.mul_zero _)
  rw [ofDigits_append, hzeros]
  rfl

theorem ofDigits_append_zeros (cs : List Char) (k : Nat) : ofDigits (cs ++ zeros k) = ofDigits cs * 10 ^ k := by
  rw [ofDigits_append, zeros, Nat.ofDigitChars_replicate_zero, Nat.mul_comm]

theorem ofDigits_toDigits (n : Nat) : ofDigits (Nat.toDigits 10 n) = n := Nat.ofDigitChars_ten_toDigits

theorem lt_pow_countDigits (n : Nat) : n < 10 ^ countDigits n :=
  (Nat.length_toDigits_le_iff (by decide) Nat.length_toDigits_pos).1 (Nat.le_refl _)

theorem pow_countDigits_le {n : Nat} (hn : 0 < n) : 10 ^ (countDigits n - 1) ≤ n := by
  rcases Nat.eq_zero_or_pos (countDigits n - 1) with h | h
  · rw [h]
    exact hn
  · refine not_lt.1 fun hlt => ?_
    have hle : countDigits n ≤ countDigits n - 1 := (Nat.length_toDigits_le_iff (by decide) h).2 hlt
    omega

/-- The number that the digits are. -/
def Digits.value (d : Digits) : ℚ := ofDigits d.digits * 10 ^ (d.point - d.digits.length)

theorem exists_dropTrailingZeros (cs : List Char) : ∃ k, cs = dropTrailingZeros cs ++ zeros k := by
  refine ⟨(cs.reverse.takeWhile (· == '0')).length, ?_⟩
  have hzeros : cs.reverse.takeWhile (· == '0') = zeros (cs.reverse.takeWhile (· == '0')).length :=
    List.eq_replicate_of_mem fun c hc => by simpa using List.mem_takeWhile_imp hc
  have hsplit := congrArg List.reverse (List.takeWhile_append_dropWhile (p := (· == '0')) (l := cs.reverse))
  rw [List.reverse_append, List.reverse_reverse, hzeros, zeros, List.reverse_replicate] at hsplit
  exact hsplit.symm

/-- A point of a grid is the number that its digits are. -/
theorem value_ofGrid (c places : Nat) (point : Int) :
    (Digits.ofGrid c places point).value = c * 10 ^ (point - places) := by
  obtain ⟨k, hk⟩ := exists_dropTrailingZeros (Nat.toDigits 10 c)
  have hlen := congrArg List.length hk
  rw [List.length_append, zeros, List.length_replicate] at hlen
  have hvalue := ofDigits_toDigits c
  rw [hk, ofDigits_append_zeros] at hvalue
  have hten : (10 : ℚ) ≠ 0 := by norm_num
  rw [Digits.value, Digits.ofGrid]
  dsimp only
  rw [show point + (Nat.toDigits 10 c).length - places - (dropTrailingZeros (Nat.toDigits 10 c)).length =
    (k : Int) + (point - places) by omega, zpow_add₀ hten, zpow_natCast, ← mul_assoc]
  congr 1
  exact_mod_cast hvalue

/-- The point of a quotient stands behind its first digit. -/
theorem pow_pointOf_le {n d : Nat} (hn : 0 < n) (hd : 0 < d) : (10 : ℚ) ^ (pointOf n d - 1) ≤ n / d := by
  have hd' : (0 : ℚ) < d := by exact_mod_cast hd
  have hten : (10 : ℚ) ≠ 0 := by norm_num
  unfold pointOf
  split
  · rename_i hle
    have hq : 0 < n / d := Nat.div_pos hle hd
    have hone : 0 < countDigits (n / d) := Nat.length_toDigits_pos
    have hpow : ((10 ^ (countDigits (n / d) - 1) : Nat) : ℚ) ≤ (n / d : Nat) := by exact_mod_cast pow_countDigits_le hq
    rw [show (countDigits (n / d) : Int) - 1 = ((countDigits (n / d) - 1 : Nat) : Int) by omega, zpow_natCast]
    push_cast at hpow
    exact hpow.trans Nat.cast_div_le
  · have hlt := lt_pow_countDigits ((d - 1) / n)
    rw [Nat.div_lt_iff_lt_mul hn] at hlt
    have hle : (d : ℚ) ≤ 10 ^ countDigits ((d - 1) / n) * n := by exact_mod_cast (by omega : d ≤ _)
    rw [show 1 - (countDigits ((d - 1) / n) : Int) - 1 = -(countDigits ((d - 1) / n) : Int) by omega, zpow_neg, zpow_natCast,
      le_div_iff₀ hd', inv_mul_le_iff₀ (by positivity)]
    exact hle

/-! ## The search -/

theorem nearest_covers {tie : Tie} {s : Span} {unit c : Nat} (h : s.nearest tie unit = some c) :
    s.covers (c * unit) = true := by
  unfold Span.nearest at h
  dsimp only at h
  split at h
  · cases h
  · rename_i hdown _
    injection h with h
    exact h ▸ hdown
  · rename_i _ hup
    injection h with h
    exact h ▸ hup
  · rename_i hdown hup
    split at h
    · injection h with h
      exact h ▸ hdown
    · split at h
      · injection h with h
        exact h ▸ hup
      · cases tie with
        | upward =>
          injection h with h
          exact h ▸ hup
        | toEven =>
          injection h with h
          rw [← h]
          split
          · exact hdown
          · exact hup

theorem covers_of_nearest_none {tie : Tie} {s : Span} {unit : Nat} (h : s.nearest tie unit = none) :
    s.covers (s.value / unit * unit) = false ∧ s.covers ((s.value / unit + 1) * unit) = false := by
  unfold Span.nearest at h
  dsimp only at h
  split at h
  · rename_i hdown hup
    exact ⟨hdown, hup⟩
  · cases h
  · cases h
  · split at h
    · cases h
    · split at h
      · cases h
      · cases tie <;> cases h

section Span

variable {b : Binary}

/-- The ends of the interval in its unit. -/
theorem span_spec (hb : b.IsDouble) : 0 < b.span.2 ∧ (b.span.1.low / b.span.2 : ℚ) = b.low ∧
    (b.span.1.value / b.span.2 : ℚ) = b.value ∧ (b.span.1.high / b.span.2 : ℚ) = b.high ∧
      (b.span.1.closed = true ↔ b.mantissa % 2 = 0) := by
  have hunit : ((1 <<< (b.exponent - 2).toNat : Nat) : ℚ) / ((1 <<< (2 - b.exponent).toNat : Nat) : ℚ) =
      2 ^ b.exponent / 4 := by
    rw [Nat.shiftLeft_eq, Nat.shiftLeft_eq, Nat.one_mul, Nat.one_mul, show 2 - b.exponent = -(b.exponent - 2) by omega]
    push_cast
    rw [pow_div_pow two_ne_zero, zpow_sub₀ two_ne_zero]
    norm_num
  have hpos := hb.pos
  refine ⟨?_, ?_, ?_, ?_, ?_⟩
  · show 0 < 1 <<< (2 - b.exponent).toNat
    rw [Nat.shiftLeft_eq]
    positivity
  · show ((((if b.narrow then 4 * b.mantissa - 1 else 4 * b.mantissa - 2) * 1 <<< (b.exponent - 2).toNat : Nat) : ℚ)) /
      ((1 <<< (2 - b.exponent).toNat : Nat) : ℚ) = _
    rw [Nat.cast_mul, mul_div_assoc, hunit, Binary.low]
    split
    · rw [Nat.cast_sub (by omega)]
      push_cast
      ring
    · rw [Nat.cast_sub (by omega)]
      push_cast
      ring
  · show (((4 * b.mantissa * 1 <<< (b.exponent - 2).toNat : Nat) : ℚ)) / ((1 <<< (2 - b.exponent).toNat : Nat) : ℚ) = _
    rw [Nat.cast_mul, mul_div_assoc, hunit, Binary.value]
    push_cast
    ring
  · show ((((4 * b.mantissa + 2) * 1 <<< (b.exponent - 2).toNat : Nat) : ℚ)) / ((1 <<< (2 - b.exponent).toNat : Nat) : ℚ) = _
    rw [Nat.cast_mul, mul_div_assoc, hunit, Binary.high]
    push_cast
    ring
  · show (b.mantissa % 2 == 0) = true ↔ _
    exact beq_iff_eq

/-- A point of a grid is inside when it rounds to the double. -/
theorem covers_iff (hb : b.IsDouble) {k : Nat} (hk : 0 < k) (u c : Nat) :
    (b.span.1.scale k).covers (c * (b.span.2 * u)) = true ↔ b.Near (c * (u / k)) := by
  obtain ⟨hd, hlow, -, hhigh, hclosed⟩ := span_spec hb
  have hd' : (0 : ℚ) < b.span.2 := by exact_mod_cast hd
  have hk' : (0 : ℚ) < k := by exact_mod_cast hk
  have hcast : ∀ l : Nat, (l * k ≤ c * (b.span.2 * u) ↔ (l / b.span.2 : ℚ) ≤ c * (u / k)) ∧
      (c * (b.span.2 * u) ≤ l * k ↔ (c * (u / k) : ℚ) ≤ l / b.span.2) := by
    intro l
    rw [← mul_div_assoc, div_le_div_iff₀ hd' hk', div_le_div_iff₀ hk' hd', ← Nat.cast_le (α := ℚ),
      ← Nat.cast_le (α := ℚ)]
    push_cast
    rw [show (c * u * b.span.2 : ℚ) = c * (b.span.2 * u) by ring]
    exact ⟨Iff.rfl, Iff.rfl⟩
  have hcast' : ∀ l : Nat, (l * k < c * (b.span.2 * u) ↔ (l / b.span.2 : ℚ) < c * (u / k)) ∧
      (c * (b.span.2 * u) < l * k ↔ (c * (u / k) : ℚ) < l / b.span.2) := fun l =>
    ⟨by rw [← not_le, ← not_le, (hcast l).2], by rw [← not_le, ← not_le, (hcast l).1]⟩
  unfold Span.covers Binary.Near
  show (if b.span.1.closed = true then _ else _) = true ↔ _
  by_cases he : b.mantissa % 2 = 0
  · rw [if_pos (hclosed.2 he), if_pos he, Bool.and_eq_true, decide_eq_true_iff, decide_eq_true_iff, ← hlow, ← hhigh]
    exact and_congr (hcast _).1 (hcast _).2
  · rw [if_neg (mt hclosed.1 he), if_neg he, Bool.and_eq_true, decide_eq_true_iff, decide_eq_true_iff, ← hlow, ← hhigh]
    exact and_congr (hcast' _).1 (hcast' _).2

/-- The unit of a grid, and the two of its points around the value. -/
theorem grid_spec (hb : b.IsDouble) (shift : Int) :
    ((Nat.pow 10 shift.toNat : Nat) / (Nat.pow 10 (-shift).toNat : Nat) : ℚ) = 10 ^ shift ∧ ∃ c : Nat,
      (b.span.1.scale (Nat.pow 10 (-shift).toNat)).value / (b.span.2 * Nat.pow 10 shift.toNat) = c ∧
        c * (10 : ℚ) ^ shift ≤ b.value ∧ b.value < (c + 1 : Nat) * (10 : ℚ) ^ shift := by
  obtain ⟨hd, -, hvalue, -, -⟩ := span_spec hb
  have hd' : (0 : ℚ) < b.span.2 := by exact_mod_cast hd
  have hk' : (0 : ℚ) < (Nat.pow 10 (-shift).toNat : Nat) := by exact_mod_cast Nat.pow_pos (by decide)
  have hu : 0 < b.span.2 * Nat.pow 10 shift.toNat := Nat.mul_pos hd (Nat.pow_pos (by decide))
  have hunit : ((Nat.pow 10 shift.toNat : Nat) / (Nat.pow 10 (-shift).toNat : Nat) : ℚ) = 10 ^ shift := by
    rw [← pow_div_pow (by norm_num) shift]
    simp only [Nat.pow_eq, Nat.cast_pow, Nat.cast_ofNat]
  refine ⟨hunit, _, rfl, ?_, ?_⟩
  · have hle := Nat.div_mul_le_self (b.span.1.value * Nat.pow 10 (-shift).toNat) (b.span.2 * Nat.pow 10 shift.toNat)
    rw [← hvalue, ← hunit, ← mul_div_assoc, div_le_div_iff₀ hk' hd', mul_assoc,
      mul_comm ((Nat.pow 10 shift.toNat : Nat) : ℚ)]
    exact_mod_cast hle
  · have hlt := Nat.lt_div_mul_add (a := b.span.1.value * Nat.pow 10 (-shift).toNat) hu
    rw [← Nat.succ_mul] at hlt
    rw [← hvalue, ← hunit, ← mul_div_assoc, div_lt_div_iff₀ hd' hk', mul_assoc,
      mul_comm ((Nat.pow 10 shift.toNat : Nat) : ℚ)]
    exact_mod_cast hlt

/-- **A grid that is fine enough has a hit.** -/
theorem nearest_ne_none (hb : b.IsDouble) {tie : Tie} {shift : Int} (hfine : 10 ^ shift * 10 ^ 16 ≤ b.value) :
    (b.span.1.scale (Nat.pow 10 (-shift).toNat)).nearest tie (b.span.2 * Nat.pow 10 shift.toNat) ≠ none := by
  intro hnone
  obtain ⟨hunit, c, hc, hle, hlt⟩ := grid_spec hb shift
  have hk : 0 < Nat.pow 10 (-shift).toNat := Nat.pow_pos (by decide)
  obtain ⟨hdown, hup⟩ := covers_of_nearest_none hnone
  rw [hc] at hdown hup
  have hdown' : ¬ b.Near (c * 10 ^ shift) := by
    rw [← hunit, ← covers_iff hb hk, hdown]
    exact Bool.false_ne_true
  have hup' : ¬ b.Near ((c + 1 : Nat) * 10 ^ shift) := by
    rw [← hunit, ← covers_iff hb hk, hup]
    exact Bool.false_ne_true
  have hpos : (0 : ℚ) < 2 ^ b.exponent := by positivity
  have hm : (b.mantissa : ℚ) < 2 ^ 53 := by exact_mod_cast hb.lt
  push_cast at hlt hup'
  unfold Binary.value at hfine hle hlt
  -- the point below lies outside, so the one above is less than a step from the end
  have hlow : c * 10 ^ shift ≤ b.low := by
    refine not_lt.1 fun hlow => hdown' (Binary.near_of_lt hlow (hle.trans_lt ?_))
    unfold Binary.high
    nlinarith
  refine hup' (Binary.near_of_lt (lt_of_lt_of_le' hlt ?_) ?_)
  · unfold Binary.low
    split <;> nlinarith
  · unfold Binary.low at hlow
    unfold Binary.high
    split at hlow
    · rename_i hnarrow
      have hm' : (b.mantissa : ℚ) = 2 ^ 52 := by exact_mod_cast (hb.narrow.1 hnarrow).1
      rw [hm'] at hfine hlow ⊢
      nlinarith
    · nlinarith

/-- What the search finds rounds to the double, and the first of its grids that is fine enough ends it. -/
theorem searchGrids_spec (hb : b.IsDouble) {tie : Tie} {point : Int} : ∀ {tries places : Nat},
    (∀ r, searchGrids tie b.span.1 b.span.2 point tries places = some r → b.Near r.value) ∧
      (searchGrids tie b.span.1 b.span.2 point tries places = none → ∀ k < tries,
        ¬ 10 ^ (point - (places + k : Nat)) * 10 ^ 16 ≤ b.value) := by
  intro tries
  induction tries with
  | zero => exact fun {places} => ⟨fun r h => (by cases h), fun _ k hk => absurd hk (Nat.not_lt_zero k)⟩
  | succ tries ih =>
    intro places
    cases hnear : (b.span.1.scale (Nat.pow 10 (-(point - places)).toNat)).nearest tie
        (b.span.2 * Nat.pow 10 (point - places).toNat) with
    | some c =>
      have hfound : searchGrids tie b.span.1 b.span.2 point (tries + 1) places = some (.ofGrid c places point) := by
        rw [searchGrids]
        simp only [hnear]
      rw [hfound]
      refine ⟨fun r h => ?_, fun h => (by cases h)⟩
      injection h with h
      have hk : 0 < Nat.pow 10 (-(point - places)).toNat := Nat.pow_pos (by decide)
      rw [← h, value_ofGrid, ← (grid_spec hb (point - places)).1, ← covers_iff hb hk]
      exact nearest_covers hnear
    | none =>
      have hnext : searchGrids tie b.span.1 b.span.2 point (tries + 1) places =
          searchGrids tie b.span.1 b.span.2 point tries (places + 1) := by
        rw [searchGrids]
        simp only [hnear]
      rw [hnext]
      refine ⟨ih.1, fun h k hk hfine => ?_⟩
      cases k with
      | zero => exact nearest_ne_none hb hfine hnear
      | succ k =>
        refine ih.2 h k (Nat.lt_of_succ_lt_succ hk) ?_
        rwa [show places + 1 + k = places + (k + 1) by omega]

/-- **The shortest decimal of a double rounds to it.** -/
theorem shortest_near (hb : b.IsDouble) (tie : Tie) : b.Near (shortest tie b).value := by
  obtain ⟨hd, -, hvalue, -, -⟩ := span_spec hb
  have hd' : (0 : ℚ) < b.span.2 := by exact_mod_cast hd
  have hvpos : (0 : ℚ) < b.value := by
    have : (0 : ℚ) < b.mantissa := by exact_mod_cast hb.pos
    unfold Binary.value
    positivity
  have hn : 0 < b.span.1.value := by
    rw [← hvalue] at hvpos
    exact_mod_cast (div_pos_iff_of_pos_right hd').1 hvpos
  have hspec := @searchGrids_spec b hb tie (pointOf b.span.1.value b.span.2) 17 1
  cases hfound : searchGrids tie b.span.1 b.span.2 (pointOf b.span.1.value b.span.2) 17 1 with
  | some r =>
    have hr : shortest tie b = r := by
      show (searchGrids tie b.span.1 b.span.2 (pointOf b.span.1.value b.span.2) 17 1).getD _ = r
      rw [hfound]
      rfl
    exact hr ▸ hspec.1 r hfound
  | none =>
    -- the last grid has seventeen digits before the point
    refine absurd ?_ (hspec.2 hfound 16 (by decide))
    have hle := pow_pointOf_le hn hd
    rw [hvalue] at hle
    refine le_trans (le_of_eq ?_) hle
    rw [← zpow_natCast (10 : ℚ) 16, ← zpow_add₀ (by norm_num)]
    congr 1
    push_cast
    ring

end Span

/-! ## Reading a decimal -/

/-- A decimal by the number of its digits. -/
theorem size_bounds {n : Nat} (hn : 0 < n) (e : Int) :
    (10 : ℚ) ^ ((countDigits n : Int) + e - 1) ≤ n * 10 ^ e ∧ (n * 10 ^ e : ℚ) < 10 ^ ((countDigits n : Int) + e) := by
  have hten : (10 : ℚ) ≠ 0 := by norm_num
  have hone : 0 < countDigits n := Nat.length_toDigits_pos
  have hle : (10 : ℚ) ^ ((countDigits n - 1 : Nat) : Int) ≤ n := by
    rw [zpow_natCast]
    exact_mod_cast pow_countDigits_le hn
  have hlt : (n : ℚ) < 10 ^ (countDigits n : Int) := by
    rw [zpow_natCast]
    exact_mod_cast lt_pow_countDigits n
  constructor
  · rw [show (countDigits n : Int) + e - 1 = ((countDigits n - 1 : Nat) : Int) + e by omega, zpow_add₀ hten]
    gcongr
  · rw [zpow_add₀ hten]
    gcongr

/-- Four hundred decimal places reach beyond the doubles at both ends. -/
theorem two_pow_le_ten_pow : (2 : ℚ) ^ (1075 : Int) ≤ 10 ^ (400 : Int) := by
  rw [show (1075 : Int) = 43 * 25 by rfl, show (400 : Int) = 16 * 25 by rfl, zpow_mul, zpow_mul]
  exact pow_le_pow_left₀ (by norm_num) (by norm_num) 25

/-- A decimal that rounds to a double is read as the double. -/
theorem scientificBits_of_near {b : Binary} (hb : b.IsDouble) {n : Nat} {e : Int} (h : b.Near (n * 10 ^ e)) :
    scientificBits n e = b.bits := by
  have hten : (10 : ℚ) ≠ 0 := by norm_num
  have hn : 0 < n := Nat.pos_of_ne_zero fun hn => by
    have hpos := h.pos hb
    rw [hn] at hpos
    simp at hpos
  obtain ⟨hge, hlt⟩ := size_bounds hn e
  have hsmall : ¬ (countDigits n : Int) + e < -400 := fun hsize => by
    refine absurd h.le.1 (not_le.2 ?_)
    calc (n * 10 ^ e : ℚ)
      _ < 10 ^ ((countDigits n : Int) + e) := hlt
      _ ≤ 10 ^ (-400 : Int)                := zpow_le_zpow_right₀ (by norm_num) hsize.le
      _ ≤ 2 ^ (-1075 : Int)                := by
        rw [zpow_neg, zpow_neg]
        exact inv_anti₀ (by positivity) two_pow_le_ten_pow
      _ ≤ b.low                            := hb.le_low
  have hlarge : ¬ 400 < (countDigits n : Int) + e := fun hsize => by
    refine absurd (h.lt_infinity hb) (not_lt.2 ?_)
    calc (2 : ℚ) ^ (1024 : Int)
      _ ≤ 2 ^ (1075 : Int)                     := zpow_le_zpow_right₀ one_le_two (by decide)
      _ ≤ 10 ^ (400 : Int)                     := two_pow_le_ten_pow
      _ ≤ 10 ^ ((countDigits n : Int) + e - 1) := zpow_le_zpow_right₀ (by norm_num) (by omega)
      _ ≤ n * 10 ^ e                           := hge
  have hratio : ((n * Nat.pow 10 e.toNat : Nat) / (Nat.pow 10 (-e).toNat : Nat) : ℚ) = n * 10 ^ e := by
    rw [← pow_div_pow hten e, ← mul_div_assoc]
    simp only [Nat.pow_eq, Nat.cast_mul, Nat.cast_pow, Nat.cast_ofNat]
  have hformed : scientificBits n e = ratioBits (n * Nat.pow 10 e.toNat) (Nat.pow 10 (-e).toNat) :=
    (if_neg (not_or.2 ⟨hn.ne', hsmall⟩)).trans (if_neg hlarge)
  rw [hformed]
  exact ratioBits_of_near hb (Nat.pow_pos (by decide)) (hratio ▸ h)

/-- A decimal is a run of digits, and perhaps a point and a second run; both together are its number. -/
theorem exists_positional {d : Digits} (hdigits : ∀ c ∈ d.digits, c.isDigit = true) (hpos : 0 < d.value) :
    ∃ whole fraction, d.positional = whole ++ (if fraction.isEmpty then [] else '.' :: fraction) ∧
      whole ≠ [] ∧ (∀ c ∈ whole, c.isDigit = true) ∧ (∀ c ∈ fraction, c.isDigit = true) ∧
        (ofDigits (whole ++ fraction) : ℚ) * 10 ^ (-(fraction.length : Int)) = d.value := by
  have hzeros : ∀ k, ∀ c ∈ zeros k, c.isDigit = true := fun k c hc => by
    rw [zeros, List.mem_replicate] at hc
    exact hc.2 ▸ rfl
  have hne : d.digits ≠ [] := fun hnil => by
    rw [Digits.value, hnil] at hpos
    simp [ofDigits] at hpos
  have hten : (10 : ℚ) ≠ 0 := by norm_num
  unfold Digits.positional Digits.value
  split
  · refine ⟨['0'], zeros (-d.point).toNat ++ d.digits, ?_, List.cons_ne_nil _ _, by simp, ?_, ?_⟩
    · rw [if_neg (by simp [hne])]
      rfl
    · exact fun c hc => (List.mem_append.1 hc).elim (hzeros _ c) (hdigits c)
    · have hskip : ofDigits (['0'] ++ (zeros (-d.point).toNat ++ d.digits)) = ofDigits d.digits :=
        ofDigits_zeros_append ((-d.point).toNat + 1) d.digits
      rw [hskip, List.length_append, zeros, List.length_replicate]
      congr 2
      omega
  · split
    · rename_i hpoint hlen
      refine ⟨d.digits ++ zeros (d.point.toNat - d.digits.length), [], ?_, ?_, ?_, by simp, ?_⟩
      · simp
      · exact List.append_ne_nil_of_left_ne_nil hne _
      · exact fun c hc => (List.mem_append.1 hc).elim (hdigits c) (hzeros _ c)
      · rw [List.append_nil, ofDigits_append_zeros, List.length_nil, Nat.cast_zero, neg_zero, zpow_zero, mul_one,
          show d.point - d.digits.length = ((d.point.toNat - d.digits.length : Nat) : Int) by omega, zpow_natCast]
        push_cast
        rfl
    · rename_i hpoint hlen
      refine ⟨d.digits.take d.point.toNat, d.digits.drop d.point.toNat, ?_, ?_, ?_, ?_, ?_⟩
      · rw [if_neg (by simp; omega)]
      · rw [← List.length_pos_iff, List.length_take]
        omega
      · exact fun c hc => hdigits c (List.mem_of_mem_take hc)
      · exact fun c hc => hdigits c (List.mem_of_mem_drop hc)
      · rw [List.take_append_drop, List.length_drop]
        congr 2
        omega

theorem readScientific?_run {whole fraction : List Char} (hne : whole ≠ []) (hwhole : ∀ c ∈ whole, c.isDigit = true)
    (hfraction : ∀ c ∈ fraction, c.isDigit = true) :
    readScientific? (whole ++ (if fraction.isEmpty then [] else '.' :: fraction)) = some ⟨whole, fraction, 0⟩ := by
  have hempty : whole.isEmpty = false := List.isEmpty_eq_false_iff.2 hne
  have htake : ∀ ds : List Char, (∀ c ∈ ds, c.isDigit = true) →
      ds.takeWhile Char.isDigit = ds ∧ ds.dropWhile Char.isDigit = [] := fun ds hds =>
    ⟨List.takeWhile_eq_self_iff.2 hds, List.dropWhile_eq_nil_iff.2 hds⟩
  unfold readScientific?
  dsimp only
  rw [List.takeWhile_append_of_pos hwhole, List.dropWhile_append_of_pos hwhole]
  cases fraction with
  | nil => simp [hempty, readExponent?]
  | cons c cs =>
    obtain ⟨h1, h2⟩ := htake (c :: cs) hfraction
    have hpoint : '.'.isDigit = false := rfl
    simp only [List.isEmpty_cons, Bool.false_eq_true, if_false, List.takeWhile_cons, hpoint, List.dropWhile_cons,
      List.append_nil, hempty, Bool.and_self, h1, h2]
    rfl

/-- **The shortest decimal of a double is read as the double.** -/
theorem readScientific?_shortest {b : Binary} (hb : b.IsDouble) {tie : Tie}
    (hdigits : ∀ c ∈ (shortest tie b).digits, c.isDigit = true) :
    ∃ s, readScientific? (shortest tie b).positional = some s ∧ s.bits = b.bits := by
  have hnear := shortest_near hb tie
  obtain ⟨whole, fraction, heq, hne, hwhole, hfraction, hvalue⟩ := exists_positional hdigits (hnear.pos hb)
  refine ⟨⟨whole, fraction, 0⟩, heq ▸ readScientific?_run hne hwhole hfraction, scientificBits_of_near hb ?_⟩
  dsimp only
  rwa [zero_sub, hvalue]

end Decimal
end Credence
