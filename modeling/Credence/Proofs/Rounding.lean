import Credence.Decimal.Binary
import Mathlib.Algebra.Order.Field.Power
import Mathlib.Algebra.Order.Field.Rat
import Mathlib.Tactic.FieldSimp
import Mathlib.Tactic.Linarith
import Mathlib.Tactic.NormNum
import Mathlib.Tactic.Positivity
import Mathlib.Tactic.Ring
/-!
# Quotients that round to a double

The numbers that round to a double form an interval around it that reaches half way to its neighbours; an end of it rounds
to the double when the mantissa is even.  Every quotient in the interval is read as the double (`ratioBits_of_near`).
-/
namespace Credence
namespace Decimal

/-! ## Doubles as rational numbers -/

namespace Binary

/-- A positive double: all bits of the mantissa are used but near zero, and of two neighbours the nearer one is below
where a power of two starts. -/
structure IsDouble (b : Binary) : Prop where
  pos    : 0 < b.mantissa
  lt     : b.mantissa < 2 ^ 53
  least  : -1074 ≤ b.exponent
  most   : b.exponent ≤ 971
  full   : 2 ^ 52 ≤ b.mantissa ∨ b.exponent = -1074
  narrow : b.narrow = true ↔ b.mantissa = 2 ^ 52 ∧ -1074 < b.exponent

def value (b : Binary) : ℚ := b.mantissa * 2 ^ b.exponent

/-- Half way to the neighbour below. -/
def low (b : Binary) : ℚ := (b.mantissa - if b.narrow then 1 / 4 else 1 / 2) * 2 ^ b.exponent

/-- Half way to the neighbour above. -/
def high (b : Binary) : ℚ := (b.mantissa + 1 / 2) * 2 ^ b.exponent

/-- The number rounds to the double. -/
def Near (b : Binary) (x : ℚ) : Prop :=
  if b.mantissa % 2 = 0 then b.low ≤ x ∧ x ≤ b.high else b.low < x ∧ x < b.high

/-- The bits of the magnitude. -/
def bits (b : Binary) : Nat := (b.exponent + 1074).toNat * leadingBit + b.mantissa

variable {b : Binary} {x : ℚ}

theorem Near.le (h : b.Near x) : b.low ≤ x ∧ x ≤ b.high := by
  unfold Near at h
  split at h
  · exact h
  · exact ⟨h.1.le, h.2.le⟩

theorem Near.lt (h : b.Near x) (hodd : b.mantissa % 2 = 1) : b.low < x ∧ x < b.high := by
  unfold Near at h
  rwa [if_neg (by omega)] at h

theorem near_of_lt (hlow : b.low < x) (hhigh : x < b.high) : b.Near x := by
  unfold Near
  split
  · exact ⟨hlow.le, hhigh.le⟩
  · exact ⟨hlow, hhigh⟩

theorem IsDouble.low_pos (hb : b.IsDouble) : 0 < b.low := by
  have hm : (1 : ℚ) ≤ b.mantissa := by exact_mod_cast hb.pos
  refine mul_pos ?_ (by positivity)
  split <;> linarith

theorem IsDouble.le_low (hb : b.IsDouble) : 2 ^ (-1075 : Int) ≤ b.low := by
  have hm : (1 : ℚ) ≤ b.mantissa := by exact_mod_cast hb.pos
  have hleast : (2 : ℚ) ^ (-1074 : Int) ≤ 2 ^ b.exponent := zpow_le_zpow_right₀ one_le_two hb.least
  calc (2 : ℚ) ^ (-1075 : Int)
    _ = 1 / 2 * 2 ^ (-1074 : Int) := by
      rw [show (-1075 : Int) = -1 + -1074 by rfl, zpow_add₀ two_ne_zero, zpow_neg_one, one_div]
    _ ≤ 1 / 2 * 2 ^ b.exponent    := by gcongr
    _ ≤ b.low                     := by
      unfold low
      gcongr
      split <;> linarith

theorem Near.pos (hb : b.IsDouble) (h : b.Near x) : 0 < x := hb.low_pos.trans_le h.le.1

/-- What rounds to a double is less than the next power of two. -/
theorem Near.lt_top (hb : b.IsDouble) (h : b.Near x) : x < 2 ^ 53 * 2 ^ b.exponent := by
  have hpos : (0 : ℚ) < 2 ^ b.exponent := by positivity
  rcases Nat.lt_or_ge b.mantissa (2 ^ 53 - 1) with hm | hm
  · have hm' : (b.mantissa : ℚ) + 2 ≤ 2 ^ 53 := by exact_mod_cast (by omega : b.mantissa + 2 ≤ 2 ^ 53)
    refine h.le.2.trans_lt ?_
    rw [high, mul_lt_mul_iff_left₀ hpos]
    linarith
  · -- the greatest mantissa is odd
    have hm' : b.mantissa = 2 ^ 53 - 1 := by have := hb.lt; omega
    refine (h.lt (by omega)).2.trans ?_
    rw [high, mul_lt_mul_iff_left₀ hpos, hm']
    norm_num

/-- What rounds to a double is less than infinity. -/
theorem Near.lt_infinity (hb : b.IsDouble) (h : b.Near x) : x < 2 ^ (1024 : Int) := by
  refine (h.lt_top hb).trans_le ?_
  rw [← zpow_natCast, ← zpow_add₀ two_ne_zero]
  have := hb.most
  exact zpow_le_zpow_right₀ one_le_two (by omega)

end Binary

/-! ## Reading a quotient -/

/-- A power of a number by the positive and the negative part of the exponent. -/
theorem pow_div_pow {a : ℚ} (ha : a ≠ 0) (q : Int) : a ^ q.toNat / a ^ (-q).toNat = a ^ q := by
  rw [← zpow_natCast, ← zpow_natCast, ← zpow_sub₀ ha]
  congr 1
  omega

theorem shift_div_shift (n d : Nat) (q : Int) :
    ((n <<< (-q).toNat : Nat) : ℚ) / ((d <<< q.toNat : Nat) : ℚ) = n / d / 2 ^ q := by
  rw [Nat.shiftLeft_eq, Nat.shiftLeft_eq, ← pow_div_pow (two_ne_zero) q]
  push_cast
  rw [mul_div_mul_comm, div_div_eq_mul_div, mul_div_assoc]

/-- A number within a half of a quotient is its whole part or the next. -/
theorem eq_div_or_of_near {n d k : Nat} (hlow : 2 * (k * d) ≤ 2 * n + d) (hhigh : 2 * n ≤ 2 * (k * d) + d) (hd : 0 < d) :
    k = n / d ∨ k = n / d + 1 := by
  have hle : k < n / d + 2 := by
    refine not_le.1 fun hk => ?_
    have hmul := Nat.mul_le_mul_right d hk
    have hn := Nat.lt_div_mul_add (a := n) hd
    rw [Nat.add_mul] at hmul
    omega
  have hge : n / d < k + 1 := by
    refine not_le.1 fun hk => ?_
    have hmul := Nat.mul_le_mul_right d hk
    have hn := Nat.div_mul_le_self n d
    rw [Nat.add_mul] at hmul
    omega
  omega

/-- **To the nearest natural number**, from a half to the even one. -/
theorem roundDiv_eq_of_near {n d k : Nat} (hd : 0 < d) (hlow : 2 * (k * d) ≤ 2 * n + d) (hhigh : 2 * n ≤ 2 * (k * d) + d)
    (hodd : k % 2 = 1 → 2 * (k * d) < 2 * n + d ∧ 2 * n < 2 * (k * d) + d) : roundDiv n d = k := by
  have hn := Nat.div_add_mod n d
  have hr := Nat.mod_lt n hd
  rw [Nat.mul_comm] at hn
  unfold roundDiv
  dsimp only
  rcases eq_div_or_of_near hlow hhigh hd with hk | hk
  · rw [← hk] at hn ⊢
    split
    · rfl
    · split
      · omega
      · have : k % 2 ≠ 1 := fun h => by have := hodd h; omega
        omega
  · have hexp : k * d = n / d * d + d := by rw [hk, Nat.add_mul, Nat.one_mul]
    rw [hexp] at hlow hhigh hodd
    split
    · omega
    · split
      · exact hk.symm
      · have : k % 2 ≠ 1 := fun h => by have := hodd h; omega
        omega

theorem roundDiv_eq {n d k : Nat} (hd : 0 < d) (hlow : (k : ℚ) - 1 / 2 ≤ n / d) (hhigh : (n / d : ℚ) ≤ k + 1 / 2)
    (hodd : k % 2 = 1 → (k : ℚ) - 1 / 2 < n / d ∧ (n / d : ℚ) < k + 1 / 2) : roundDiv n d = k := by
  have hd' : (0 : ℚ) < d := by exact_mod_cast hd
  refine roundDiv_eq_of_near hd ?_ ?_ fun hk => ?_
  · rw [le_div_iff₀ hd'] at hlow
    have : (2 * (k * d) : ℚ) ≤ 2 * n + d := by linarith
    exact_mod_cast this
  · rw [div_le_iff₀ hd'] at hhigh
    have : (2 * n : ℚ) ≤ 2 * (k * d) + d := by linarith
    exact_mod_cast this
  · obtain ⟨hl, hh⟩ := hodd hk
    rw [lt_div_iff₀ hd'] at hl
    rw [div_lt_iff₀ hd'] at hh
    have hl' : (2 * (k * d) : ℚ) < 2 * n + d := by linarith
    have hh' : (2 * n : ℚ) < 2 * (k * d) + d := by linarith
    exact ⟨by exact_mod_cast hl', by exact_mod_cast hh'⟩

theorem shift_lt_shift_iff {n d : Nat} (hd : 0 < d) (q : Int) (k : Nat) :
    n <<< (-q).toNat < d <<< (q.toNat + k) ↔ (n / d : ℚ) < 2 ^ k * 2 ^ q := by
  have hd' : (0 : ℚ) < d := by exact_mod_cast hd
  have hpow : (0 : ℚ) < 2 ^ (-q).toNat := by positivity
  rw [Nat.shiftLeft_eq, Nat.shiftLeft_eq, ← pow_div_pow two_ne_zero q, ← mul_div_assoc, div_lt_div_iff₀ hd' hpow,
    ← Nat.cast_lt (α := ℚ), pow_add]
  push_cast
  rw [show (2 ^ k * 2 ^ q.toNat * d : ℚ) = d * (2 ^ q.toNat * 2 ^ k) by ring]

/-- A quotient by the numbers of bits. -/
theorem log2_bounds {n d : Nat} (hn : 0 < n) (hd : 0 < d) :
    (2 : ℚ) ^ ((n.log2 : Int) - d.log2 - 1) < n / d ∧ (n / d : ℚ) < 2 ^ ((n.log2 : Int) - d.log2 + 1) := by
  have hd' : (0 : ℚ) < d := by exact_mod_cast hd
  have hn1 : (2 : ℚ) ^ (n.log2 : Int) ≤ n := by
    rw [zpow_natCast]
    exact_mod_cast Nat.log2_self_le hn.ne'
  have hn2 : (n : ℚ) < 2 ^ ((n.log2 : Int) + 1) := by
    exact_mod_cast (Nat.lt_log2_self : n < 2 ^ (n.log2 + 1))
  have hd1 : (2 : ℚ) ^ (d.log2 : Int) ≤ d := by
    rw [zpow_natCast]
    exact_mod_cast Nat.log2_self_le hd.ne'
  have hd2 : (d : ℚ) < 2 ^ ((d.log2 : Int) + 1) := by
    exact_mod_cast (Nat.lt_log2_self : d < 2 ^ (d.log2 + 1))
  constructor
  · rw [lt_div_iff₀ hd']
    calc (2 : ℚ) ^ ((n.log2 : Int) - d.log2 - 1) * d
      _ < 2 ^ ((n.log2 : Int) - d.log2 - 1) * 2 ^ ((d.log2 : Int) + 1) := by gcongr
      _ = 2 ^ (n.log2 : Int)                                          := by
        rw [← zpow_add₀ two_ne_zero]
        congr 1
        omega
      _ ≤ n                                                           := hn1
  · rw [div_lt_iff₀ hd']
    calc (n : ℚ)
      _ < 2 ^ ((n.log2 : Int) + 1)                                    := hn2
      _ = 2 ^ ((n.log2 : Int) - d.log2 + 1) * 2 ^ (d.log2 : Int)      := by
        rw [← zpow_add₀ two_ne_zero]
        congr 1
        omega
      _ ≤ 2 ^ ((n.log2 : Int) - d.log2 + 1) * d                       := by gcongr

/-- **The exponent of the last bit**: with it the quotient has at most 53 bits before the point, and that many but near
zero. -/
theorem lastBit_spec {n d : Nat} (hn : 0 < n) (hd : 0 < d) :
    -1074 ≤ lastBit n d ∧ (n / d : ℚ) < 2 ^ 53 * 2 ^ lastBit n d ∧
      (2 ^ 52 * 2 ^ lastBit n d ≤ (n / d : ℚ) ∨ lastBit n d = -1074) := by
  obtain ⟨hlow, hhigh⟩ := log2_bounds hn hd
  let guess : Int := (n.log2 : Int) - d.log2 - 53
  -- before it is kept above the least exponent, the guess or the next one is right
  have hright : ∃ q, lastBit n d = max q (-1074) ∧ 2 ^ 52 * 2 ^ q ≤ (n / d : ℚ) ∧ (n / d : ℚ) < 2 ^ 53 * 2 ^ q := by
    have hstep : ∀ (k : Nat) (q : Int), (2 : ℚ) ^ k * 2 ^ q = 2 ^ (k + q) := fun k q => by
      rw [zpow_add₀ two_ne_zero, zpow_natCast]
    by_cases hless : n <<< (-guess).toNat < d <<< (guess.toNat + 53)
    · refine ⟨guess, by simp only [lastBit, guess] at hless ⊢; rw [if_pos hless], ?_, ?_⟩
      · rw [hstep, show ((52 : Nat) : Int) + guess = (n.log2 : Int) - d.log2 - 1 by simp only [guess]; omega]
        exact hlow.le
      · exact (shift_lt_shift_iff hd guess 53).1 hless
    · refine ⟨guess + 1, by simp only [lastBit, guess] at hless ⊢; rw [if_neg hless], ?_, ?_⟩
      · have hge := not_lt.1 (mt (shift_lt_shift_iff hd guess 53).2 hless)
        rw [hstep] at hge ⊢
        rw [show ((52 : Nat) : Int) + (guess + 1) = ((53 : Nat) : Int) + guess by omega]
        exact hge
      · rw [hstep, show ((53 : Nat) : Int) + (guess + 1) = (n.log2 : Int) - d.log2 + 1 by simp only [guess]; omega]
        exact hhigh
  obtain ⟨q, hq, hge, hlt⟩ := hright
  rw [hq]
  refine ⟨le_max_right _ _, hlt.trans_le ?_, ?_⟩
  · gcongr
    · norm_num
    · exact le_max_left _ _
  · rcases le_total q (-1074) with h | h
    · exact .inr (max_eq_right h)
    · rw [max_eq_left h]
      exact .inl hge

theorem leadingBit_eq : leadingBit = 2 ^ 52 := by decide

theorem Binary.IsDouble.bits_le {b : Binary} (hb : b.IsDouble) : b.bits ≤ infinityBits := by
  have hq : (b.exponent + 1074).toNat ≤ 2045 := by
    have := hb.most
    omega
  rw [Binary.bits, infinityBits, leadingBit_eq]
  calc (b.exponent + 1074).toNat * 2 ^ 52 + b.mantissa
    _ ≤ 2045 * 2 ^ 52 + 2 ^ 53 := Nat.add_le_add (Nat.mul_le_mul_right _ hq) hb.lt.le
    _ = 2047 * 2 ^ 52          := by norm_num

theorem two_zpow_succ (q : Int) : (2 : ℚ) ^ (q + 1) = 2 * 2 ^ q := by rw [zpow_add_one₀ two_ne_zero, mul_comm]

/-- A number that rounds to a double and has a smaller last bit lies just below a power of two. -/
theorem Binary.Near.below {b : Binary} (hb : b.IsDouble) {x : ℚ} {q : Int} (h : b.Near x) (hlt : x < 2 ^ 53 * 2 ^ q)
    (hleast : -1074 ≤ q) (hq : q < b.exponent) :
    q = b.exponent - 1 ∧ b.mantissa = 2 ^ 52 ∧ (2 ^ 53 - 1 / 2) * 2 ^ q ≤ x := by
  have hpow : ∀ {p r : Int}, p ≤ r → (2 : ℚ) ^ p ≤ 2 ^ r := fun h => zpow_le_zpow_right₀ one_le_two h
  have hpos : ∀ p : Int, (0 : ℚ) < 2 ^ p := fun p => by positivity
  have hfull : 2 ^ 52 ≤ b.mantissa := hb.full.resolve_right (by omega)
  have hlow := h.le.1
  rw [Binary.low] at hlow
  -- a greater mantissa leaves no room below
  have hm : b.mantissa = 2 ^ 52 := by
    refine le_antisymm (not_lt.1 fun hm => ?_) hfull
    have hm' : (2 : ℚ) ^ 52 + 1 ≤ b.mantissa := by exact_mod_cast hm
    have hnarrow : b.narrow = false := Bool.eq_false_iff.2 fun hnarrow => by
      have := (hb.narrow.1 hnarrow).1
      omega
    rw [hnarrow, if_neg Bool.false_ne_true] at hlow
    have hdouble := hpow (show q + 1 ≤ b.exponent by omega)
    rw [two_zpow_succ] at hdouble
    nlinarith [hpos b.exponent, hpos q]
  have hnarrow : b.narrow = true := hb.narrow.2 ⟨hm, by omega⟩
  rw [hnarrow, if_pos rfl, hm] at hlow
  push_cast at hlow
  have hnext : q = b.exponent - 1 := by
    by_contra hne
    have hquad := hpow (show q + 1 + 1 ≤ b.exponent by omega)
    rw [two_zpow_succ, two_zpow_succ] at hquad
    nlinarith [hpos b.exponent, hpos q]
  refine ⟨hnext, hm, ?_⟩
  have hdouble := two_zpow_succ q
  rw [show q + 1 = b.exponent by omega] at hdouble
  rw [hdouble] at hlow
  linarith

/-- The exponent of the last bit is that of the double, or one less where a number just below a power of two rounds up to
it. -/
theorem lastBit_of_near {b : Binary} (hb : b.IsDouble) {n d : Nat} (hn : 0 < n) (hd : 0 < d) (h : b.Near (n / d)) :
    lastBit n d = b.exponent ∨
      lastBit n d = b.exponent - 1 ∧ b.mantissa = 2 ^ 52 ∧ (2 ^ 53 - 1 / 2) * 2 ^ lastBit n d ≤ (n / d : ℚ) := by
  obtain ⟨hleast, hlt, hge⟩ := lastBit_spec hn hd
  rcases lt_trichotomy (lastBit n d) b.exponent with hq | hq | hq
  · exact .inr (h.below hb hlt hleast hq)
  · exact .inl hq
  · have htop := h.lt_top hb
    have hbit := hge.resolve_right (by have := hb.least; omega)
    have hdouble : (2 : ℚ) ^ (b.exponent + 1) ≤ 2 ^ lastBit n d := zpow_le_zpow_right₀ one_le_two (by omega)
    rw [two_zpow_succ] at hdouble
    linarith

/-- **What rounds to a double is read as the double.** -/
theorem ratioBits_of_near {b : Binary} (hb : b.IsDouble) {n d : Nat} (hd : 0 < d) (h : b.Near (n / d)) :
    ratioBits n d = b.bits := by
  have hn : 0 < n := by
    rcases Nat.eq_zero_or_pos n with rfl | hn
    · have := h.pos hb
      simp at this
    · exact hn
  have hshift : 0 < d <<< (lastBit n d).toNat := by
    rw [Nat.shiftLeft_eq]
    positivity
  have hpos : (0 : ℚ) < 2 ^ lastBit n d := by positivity
  rw [ratioBits, if_neg hn.ne']
  dsimp only
  rcases lastBit_of_near hb hn hd h with hq | ⟨hq, hm, hlow⟩
  · have hround : roundDiv (n <<< (-lastBit n d).toNat) (d <<< (lastBit n d).toNat) = b.mantissa := by
      have hδ : (if b.narrow then 1 / 4 else 1 / 2 : ℚ) ≤ 1 / 2 := by split <;> norm_num
      refine roundDiv_eq hshift ?_ ?_ fun hodd => ?_
      · rw [shift_div_shift, le_div_iff₀ hpos, hq]
        exact le_trans (by rw [Binary.low]; gcongr) h.le.1
      · rw [shift_div_shift, div_le_iff₀ hpos, hq]
        exact h.le.2
      · rw [shift_div_shift, lt_div_iff₀ hpos, div_lt_iff₀ hpos, hq]
        exact ⟨lt_of_le_of_lt (by rw [Binary.low]; gcongr) (h.lt hodd).1, (h.lt hodd).2⟩
    rw [hround, hq]
    exact min_eq_left hb.bits_le
  · have hround : roundDiv (n <<< (-lastBit n d).toNat) (d <<< (lastBit n d).toNat) = 2 ^ 53 := by
      refine roundDiv_eq hshift ?_ ?_ fun hodd => absurd hodd (by decide)
      · rw [shift_div_shift, le_div_iff₀ hpos]
        push_cast
        exact hlow
      · rw [shift_div_shift, div_le_iff₀ hpos]
        have := (lastBit_spec hn hd).2.1
        push_cast
        linarith
    have hbits : (lastBit n d + 1074).toNat * leadingBit + 2 ^ 53 = b.bits := by
      have hleast := (lastBit_spec hn hd).1
      rw [Binary.bits, hm, leadingBit_eq, show (b.exponent + 1074).toNat = (lastBit n d + 1074).toNat + 1 by omega]
      omega
    rw [hround, hbits]
    exact min_eq_left hb.bits_le

end Decimal
end Credence
