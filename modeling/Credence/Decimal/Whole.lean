/-!
# Whole parts of large numbers

A double above 64 has a whole part of at least 64 (`le_toUInt64_of_lt`), whatever it was computed from: all of its
significant bits are there, and at most 46 of them stand behind the point.  Infinity counts as the largest word.
-/
namespace Credence
namespace Decimal

open Float.Model Float.Model.UnpackedFloat

theorem lt_iff_compare {x y : Float} : x < y ↔ x.toModel.unpack.compare y.toModel.unpack = some .lt := by
  show Float.lt x y = true ↔ _
  rw [Float.lt, decide_eq_true_iff]
  show Float.Model.UnpackedFloat.lt _ _ = true ↔ _
  rw [Float.Model.UnpackedFloat.lt]
  exact beq_iff_eq

/-- Above the least exponent a finite double has all of its significant bits. -/
theorem normal_of_unpack {x : Float} {s : Sign} {m : Nat} {e : Int} {hm : 0 < m}
    (hx : x.toModel.unpack = .finite s m e hm) (he : -1074 < e) : 1 <<< 52 ≤ m := by
  let bits : BitVec Format.binary64.numBits := x.toModel.toBits.toBitVec
  by_cases hones : unpackExponent bits = -1#_
  · by_cases hmantissa : unpackMantissa bits = 0#_
    · have h : x.toModel.unpack = .infinity (Sign.ofBitVec (unpackSign bits)) := (if_pos hones).trans (if_pos hmantissa)
      cases h.symm.trans hx
    · have h : x.toModel.unpack = .notANumber := (if_pos hones).trans (if_neg hmantissa)
      cases h.symm.trans hx
  · by_cases hzero : unpackExponent bits = 0#_
    · by_cases hmantissa : unpackMantissa bits = 0#_
      · have h : x.toModel.unpack = .zero (Sign.ofBitVec (unpackSign bits)) :=
          (if_neg hones).trans ((if_pos hzero).trans (dif_pos hmantissa))
        cases h.symm.trans hx
      · have h : x.toModel.unpack = _ := (if_neg hones).trans ((if_pos hzero).trans (dif_neg hmantissa))
        injection h.symm.trans hx with _ _ hexp
        rw [hzero] at hexp
        exact absurd he (by rw [← hexp]; decide)
    · have h : x.toModel.unpack = _ := (if_neg hones).trans (if_neg hzero)
      injection h.symm.trans hx with _ hvalue
      rw [← hvalue, BitVec.toNat_append]
      exact Nat.left_le_or

theorem mantissa_repeat (m k : Nat) :
    (Nat.repeat ExtendedMantissa.shiftRightOne k ⟨m, false, false⟩).mantissa = m >>> k := by
  induction k with
  | zero => simp [Nat.repeat]
  | succ k ih =>
    rw [Nat.repeat, ExtendedMantissa.shiftRightOne]
    dsimp only
    rw [ih, Nat.shiftRight_succ]

/-- The whole part of `m * 2 ^ e`. -/
theorem roundToInt_eq (m : Nat) (e : Int) :
    roundToInt .positive m e = ((m <<< e.toNat >>> (e.toNat - e).toNat : Nat) : Int) := by
  have h := mantissa_repeat (m <<< (e - 0).toNat) (0 - (e - ((e - 0).toNat : Int))).toNat
  show ((Nat.repeat ExtendedMantissa.shiftRightOne _ ⟨_, false, false⟩).mantissa : Int) = _
  rw [h, Int.sub_zero, Int.zero_sub, Int.neg_sub]

/-- A conversion stops at the largest word. -/
theorem toNat_toUInt64 (x : Float) :
    x.toUInt64.toNat = min (x.toModel.unpack.toInt 0 (UInt64.size - 1)).toNat (UInt64.size - 1) := by
  show (UInt64.ofNatClamp _).toNat = _
  unfold UInt64.ofNatClamp
  split
  · rw [UInt64.toNat_ofNatLT]
    omega
  · show UInt64.size - 1 = _
    omega

theorem unpack_sixtyFour : (64.0 : Float).toModel.unpack = .finite .positive (1 <<< 52) (-46) (by decide) := rfl

/-- **A double above 64 has a whole part of at least 64.** -/
theorem le_toUInt64_of_lt {x : Float} (h : 64.0 < x) : 64 ≤ x.toUInt64.toNat := by
  rw [lt_iff_compare, unpack_sixtyFour] at h
  rw [toNat_toUInt64]
  have hsize : 64 ≤ UInt64.size - 1 := by decide
  refine Nat.le_min.2 ⟨?_, hsize⟩
  cases hx : x.toModel.unpack with
  | notANumber => rw [hx] at h; cases h
  | zero s => rw [hx] at h; cases h
  | infinity s =>
    rw [hx] at h
    cases s with
    | negative => cases h
    | positive => exact hsize
  | finite s m e hm =>
    rw [hx] at h
    cases s with
    | negative => cases h
    | positive =>
      have hcompare : (compare (-46 : Int) e).then (compare (1 <<< 52) m) = .lt := Option.some.inj h
      have hlarge : 1 <<< 52 ≤ m ∧ -46 ≤ e := by
        rcases Ordering.then_eq_lt.1 hcompare with h | ⟨h, h'⟩
        · have he := Int.compare_eq_lt.1 h
          exact ⟨normal_of_unpack hx (by omega), by omega⟩
        · have he := Int.compare_eq_eq.1 h
          exact ⟨Nat.le_of_lt (Nat.compare_eq_lt.1 h'), by omega⟩
      show 64 ≤ (roundToInt .positive m e).toNat
      rw [roundToInt_eq, Int.toNat_natCast, Nat.shiftRight_eq_div_pow, Nat.le_div_iff_mul_le (Nat.two_pow_pos _), Nat.shiftLeft_eq]
      calc 64 * 2 ^ (e.toNat - e).toNat
        _ ≤ 64 * 2 ^ 46       := Nat.mul_le_mul_left _ (Nat.pow_le_pow_right (by decide) (by omega))
        _ = 1 <<< 52          := by decide
        _ ≤ m                 := hlarge.1
        _ ≤ m * 2 ^ e.toNat   := Nat.le_mul_of_pos_right _ (Nat.two_pow_pos _)

end Decimal
end Credence
