import Credence.Decimal.Whole
import Credence.Proofs.Outputs
import Credence.Proofs.Printing
import Credence.Proofs.Wording
/-!
# Doubles as weights

The doubles that a program runs on keep the laws of weights.  A double that is a number is printed so that it reads back
bit for bit (`readBits?_plain`), and the bits of a number are told by the number (`Double.toBits_toFloat`).  So the printed
form tells proper weights apart, is the number that was written, and is that of one for one only.
-/
namespace Credence
namespace Decimal

open Float.Model (Format)
open Float.Model.UnpackedFloat

/-! ## Bits and parts -/

theorem toNat_unpackMantissa (b : BitVec Format.binary64.numBits) : (unpackMantissa b).toNat = b.toNat % 2 ^ 52 := by
  show (BitVec.extractLsb' 0 52 b).toNat = _
  rw [BitVec.extractLsb'_toNat, Nat.shiftRight_zero]

theorem toNat_unpackExponent (b : BitVec Format.binary64.numBits) : (unpackExponent b).toNat = b.toNat >>> 52 % 2 ^ 11 := by
  show (BitVec.extractLsb' 52 11 b).toNat = _
  rw [BitVec.extractLsb'_toNat]

/-- A word is put together from its parts. -/
theorem packComponents_unpack {b : BitVec Format.binary64.numBits} {e : BitVec Format.binary64.exponentBits}
    {m : BitVec Format.binary64.mantissaBitsWithoutImplicit} (he : unpackExponent b = e) (hm : unpackMantissa b = m) :
    packComponents .binary64 (Sign.ofBitVec (unpackSign b)) e m = b := by
  have hsign : ∀ v : BitVec 1, (Sign.ofBitVec v).toBitVec = v := by decide
  subst he hm
  show (Sign.ofBitVec (BitVec.extractLsb' 63 1 b)).toBitVec ++ BitVec.extractLsb' 52 11 b ++ BitVec.extractLsb' 0 52 b = b
  rw [hsign]
  ext i hi
  grind

theorem pack_finite (s : Sign) {m : Nat} {e : Int} (hm : 0 < m) (he : (e + 1075).toNat + 1 < 2 ^ 11) :
    pack .binary64 (.finite s m e hm) =
      packComponents .binary64 s (if m.log2 + 1 = 53 then BitVec.ofNat _ (e + 1075).toNat else 0#_) (BitVec.ofNat _ m) := by
  have hbias : (e + Format.binary64.exponentBias + Format.binary64.mantissaBitsWithoutImplicit).toNat = (e + 1075).toNat :=
    congrArg Int.toNat (Int.add_assoc e 1023 52)
  unfold pack
  dsimp only
  rw [hbias, if_neg (Nat.not_le.2 he)]
  exact (apply_ite (fun x => packComponents .binary64 s x (BitVec.ofNat _ m)) _ _ _).symm

theorem pack_unpack_subnormal {b : BitVec Format.binary64.numBits} (he : unpackExponent b = 0#_)
    (hm : unpackMantissa b ≠ 0#_) : pack .binary64 (unpack .binary64 b) = b := by
  have hlt : (unpackMantissa b).toNat < 2 ^ 52 := (unpackMantissa b).isLt
  have hunpack : unpack .binary64 b = _ :=
    (if_neg (by rw [he]; decide)).trans ((if_pos he).trans (dif_neg hm))
  -- the bit that a normal mantissa has is missing
  have hlog : ¬ (unpackMantissa b).toNat.log2 + 1 = 53 := fun hlog => by
    have hle := Nat.log2_self_le (n := (unpackMantissa b).toNat) (fun h0 => hm (BitVec.eq_of_toNat_eq h0))
    rw [show (unpackMantissa b).toNat.log2 = 52 by omega] at hle
    omega
  rw [hunpack, pack_finite _ _ (by rw [he]; decide), if_neg hlog]
  refine packComponents_unpack he ?_
  rw [BitVec.ofNat_toNat, BitVec.setWidth_eq]

theorem pack_unpack_normal {b : BitVec Format.binary64.numBits} (hones : unpackExponent b ≠ -1#_)
    (hleast : unpackExponent b ≠ 0#_) : pack .binary64 (unpack .binary64 b) = b := by
  have hmantissa : (unpackMantissa b).toNat < 2 ^ 52 := (unpackMantissa b).isLt
  have hlt : (unpackExponent b).toNat < 2 ^ 11 := (unpackExponent b).isLt
  have hne : (unpackExponent b).toNat ≠ 2 ^ 11 - 1 := fun he => hones (BitVec.eq_of_toNat_eq he)
  have hunpack : unpack .binary64 b = _ := (if_neg hones).trans (if_neg hleast)
  have happend : (1#1 ++ unpackMantissa b).toNat = 2 ^ 52 + (unpackMantissa b).toNat := by
    rw [BitVec.toNat_append, ← Nat.shiftLeft_add_eq_or_of_lt (unpackMantissa b).isLt]
    rfl
  have hlog : (1#1 ++ unpackMantissa b).toNat.log2 + 1 = 53 := by
    have hpos : 2 ^ 52 + (unpackMantissa b).toNat ≠ 0 := by omega
    have hge := (Nat.le_log2 hpos).2 (Nat.le_add_right (2 ^ 52) _)
    have hle := (Nat.log2_lt hpos (k := 53)).2 (by omega)
    rw [happend]
    omega
  have hexponent : (((unpackExponent b).toNat : Int) - (Format.binary64.exponentBias +
      Format.binary64.mantissaBitsWithoutImplicit) + 1075).toNat = (unpackExponent b).toNat := by
    show (((unpackExponent b).toNat : Int) - 1075 + 1075).toNat = _
    omega
  rw [hunpack, pack_finite _ _ (by rw [hexponent]; omega), if_pos hlog, hexponent]
  refine packComponents_unpack ?_ (BitVec.eq_of_toNat_eq ?_)
  · rw [BitVec.ofNat_toNat, BitVec.setWidth_eq]
  · rw [BitVec.toNat_ofNat, happend]
    show _ = (2 ^ 52 + (unpackMantissa b).toNat) % 2 ^ 52
    omega

/-- **A word is the bits of the number it stands for**, unless it stands for none. -/
theorem pack_unpack {b : BitVec Format.binary64.numBits} (h : unpack .binary64 b ≠ .notANumber) :
    pack .binary64 (unpack .binary64 b) = b := by
  by_cases hones : unpackExponent b = -1#_
  · by_cases hzero : unpackMantissa b = 0#_
    · have hunpack : unpack .binary64 b = .infinity (Sign.ofBitVec (unpackSign b)) := (if_pos hones).trans (if_pos hzero)
      rw [hunpack]
      exact packComponents_unpack hones hzero
    · exact absurd ((if_pos hones).trans (if_neg hzero)) h
  · by_cases hleast : unpackExponent b = 0#_
    · by_cases hzero : unpackMantissa b = 0#_
      · have hunpack : unpack .binary64 b = .zero (Sign.ofBitVec (unpackSign b)) :=
          (if_neg hones).trans ((if_pos hleast).trans (dif_pos hzero))
        rw [hunpack]
        exact packComponents_unpack hleast hzero
      · exact pack_unpack_subnormal hleast hzero
    · exact pack_unpack_normal hones hleast

/-- The sign in front of the other bits. -/
theorem toBits_eq_signedBits {x : Float} {magnitude : Nat} (h : magnitude = x.toBits.toNat % 2 ^ 63) :
    x.toBits = signedBits (x.toBits.toNat >>> 63 == 1) magnitude := by
  have hlt := x.toBits.toNat_lt
  have hpow : 1 <<< 63 = 2 ^ 63 := by decide
  refine UInt64.toNat_inj.1 ?_
  rw [signedBits, UInt64.toNat_ofNat', Nat.shiftRight_eq_div_pow, hpow, h]
  split
  · rename_i hsign
    rw [beq_iff_eq] at hsign
    omega
  · rename_i hsign
    rw [beq_iff_eq] at hsign
    omega

/-- With all bits of the exponent set a double is infinite or no number. -/
theorem unpack_of_ones {x : Float} (h : x.toBits.toNat >>> 52 % 2048 = 2047) :
    (x.toBits.toNat % leadingBit = 0 → ∃ s, x.toModel.unpack = .infinity s) ∧
      (x.toBits.toNat % leadingBit ≠ 0 → x.toModel.unpack = .notANumber) := by
  let b : BitVec Format.binary64.numBits := x.toModel.toBits.toBitVec
  have hexponent : unpackExponent b = -1#_ := by
    refine BitVec.eq_of_toNat_eq ?_
    rw [toNat_unpackExponent]
    exact h
  have hmantissa : (unpackMantissa b).toNat = x.toBits.toNat % leadingBit := by
    rw [toNat_unpackMantissa, leadingBit_eq]
    rfl
  constructor
  · intro hfraction
    have hzero : unpackMantissa b = 0#_ := BitVec.eq_of_toNat_eq (hmantissa.trans hfraction)
    exact ⟨_, (if_pos hexponent).trans (if_pos hzero)⟩
  · intro hfraction
    have hne : unpackMantissa b ≠ 0#_ := fun hzero => hfraction (hmantissa.symm.trans (congrArg BitVec.toNat hzero))
    exact (if_pos hexponent).trans (if_neg hne)

theorem nan_spec {x : Float} (h : classify x = .nan) : x.toModel.unpack = .notANumber := by
  unfold classify at h
  dsimp only at h
  split at h
  · rename_i hones
    split at h
    · cases h
    · exact (unpack_of_ones hones).2 ‹_›
  · split at h <;> cases h

theorem infinite_spec {x : Float} {negative : Bool} (h : classify x = .infinite negative) :
    x.toBits = signedBits negative infinityBits ∧ ∃ s, x.toModel.unpack = .infinity s := by
  unfold classify at h
  dsimp only at h
  split at h
  · rename_i hones
    split at h
    · rename_i hfraction
      injection h with h
      rw [← h]
      refine ⟨toBits_eq_signedBits ?_, (unpack_of_ones hones).1 hfraction⟩
      rw [Nat.shiftRight_eq_div_pow] at hones
      rw [infinityBits]
      rw [leadingBit_eq] at hfraction ⊢
      omega
    · cases h
  · split at h <;> cases h

/-- A finite double by its mantissa and exponent. -/
theorem finite_spec {x : Float} {negative : Bool} {b : Binary} (h : classify x = .finite negative b) :
    x.toBits = signedBits negative b.bits ∧ (b.mantissa = 0 → b.bits = 0) ∧ (b.mantissa ≠ 0 → b.IsDouble) := by
  have hlt := x.toBits.toNat_lt
  unfold classify at h
  dsimp only at h
  rw [Nat.shiftRight_eq_div_pow x.toBits.toNat 52, leadingBit_eq] at h
  split at h
  · split at h <;> cases h
  · rename_i hones
    split at h
    · rename_i hzero
      injection h with hnegative hb
      subst hb
      refine ⟨?_, fun hm => ?_, fun hm => ⟨Nat.pos_of_ne_zero hm, ?_, ?_, ?_, .inr rfl, ?_⟩⟩
      · rw [← hnegative]
        refine toBits_eq_signedBits ?_
        rw [Binary.bits, leadingBit_eq]
        dsimp only
        omega
      · rw [Binary.bits]
        dsimp only at hm ⊢
        rw [hm]
        rfl
      · dsimp only
        omega
      · exact Int.le_refl _
      · show (-1074 : Int) ≤ 971
        decide
      · exact iff_of_false Bool.false_ne_true (fun h => Int.lt_irrefl _ h.2)
    · rename_i hnonzero
      injection h with hnegative hb
      subst hb
      refine ⟨?_, fun hm => ?_, fun hm => ⟨?_, ?_, ?_, ?_, .inl ?_, ?_⟩⟩
      · rw [← hnegative]
        refine toBits_eq_signedBits ?_
        rw [Binary.bits, leadingBit_eq]
        dsimp only
        omega
      · dsimp only at hm
        omega
      · exact Nat.lt_of_lt_of_le (Nat.two_pow_pos 52) (Nat.le_add_right _ _)
      · dsimp only
        omega
      · dsimp only
        omega
      · dsimp only
        omega
      · exact Nat.le_add_right _ _
      · dsimp only
        rw [Bool.and_eq_true, beq_iff_eq, decide_eq_true_iff]
        omega

/-! ## Reading what is printed -/

theorem takeSign_signed (negative : Bool) {cs : List Char} (h : ∀ c ∈ cs, c ≠ '-' ∧ c ≠ '+') :
    takeSign (signed negative cs).toList = (negative, cs) := by
  rw [signed, String.toList_ofList]
  cases negative with
  | true => rfl
  | false =>
    rw [if_neg Bool.false_ne_true]
    unfold takeSign
    split
    · exact absurd rfl (h _ List.mem_cons_self).1
    · exact absurd rfl (h _ List.mem_cons_self).2
    · rfl

theorem readBits?_signed (negative : Bool) {cs : List Char} {magnitude : Nat} (hsign : ∀ c ∈ cs, c ≠ '-' ∧ c ≠ '+')
    (h : (∃ d, readScientific? cs = some d ∧ d.bits = magnitude) ∨
      readScientific? cs = none ∧ wordBits? cs = some magnitude) :
    readBits? (signed negative cs) = some (signedBits negative magnitude) := by
  unfold readBits?
  rw [takeSign_signed negative hsign]
  rcases h with ⟨d, hd, rfl⟩ | ⟨hnone, hword⟩
  · simp only [hd, Option.map_some]
  · simp only [hnone, hword, Option.map_some]

/-- **A double that is a number reads back bit for bit.** -/
theorem readBits?_plain {x : Float} (h : x.toModel.unpack ≠ .notANumber) : readBits? (plain x) = some x.toBits := by
  unfold plain
  cases hclass : classify x with
  | nan => exact absurd (nan_spec hclass) h
  | infinite negative =>
    rw [(infinite_spec hclass).1]
    exact readBits?_signed negative (by simp) (.inr ⟨rfl, rfl⟩)
  | finite negative b =>
    obtain ⟨hbits, hzero, hdouble⟩ := finite_spec hclass
    rw [hbits]
    dsimp only
    split
    · rename_i hm
      rw [hzero hm]
      exact readBits?_signed negative (by simp) (.inl ⟨⟨['0'], [], 0⟩, rfl, rfl⟩)
    · rename_i hm
      have hdigits := isDigit_shortest .upward b
      refine readBits?_signed negative (fun c hc => ?_) (.inl (readScientific?_shortest (hdouble hm) hdigits))
      have hnumeral := (positional_spec hdigits).2 c hc
      constructor <;> (rintro rfl; exact absurd hnumeral (by unfold IsNumeral; decide))

/-- What is written of a finite double is a number. -/
theorem isNumber_plain {x : Float} {negative : Bool} {b : Binary} (h : classify x = .finite negative b) :
    Constant.isNumber (plain x).toList = true := by
  have hsigned : ∀ {cs : List Char}, (∃ whole tail, cs = whole ++ tail ∧ Constant.isDigitRun whole = true ∧
      (tail = [] ∨ ∃ ds, tail = '.' :: ds ∧ Constant.isDigitRun ds = true)) →
        Constant.isNumber (signed negative cs).toList = true := by
    rintro cs ⟨whole, tail, rfl, hwhole, htail⟩
    refine Constant.isNumber_iff.2 ⟨if negative then ['-'] else [], whole, tail, ?_, ?_, hwhole, htail⟩
    · rw [signed, String.toList_ofList]
      cases negative <;> rfl
    · cases negative <;> simp
  unfold plain
  rw [h]
  dsimp only
  split
  · exact hsigned ⟨['0'], [], rfl, rfl, .inl rfl⟩
  · rename_i hm
    have hdigits := isDigit_shortest .upward b
    obtain ⟨-, -, hdouble⟩ := finite_spec h
    obtain ⟨whole, fraction, heq, hne, hwhole, hfraction, -⟩ :=
      exists_positional hdigits ((shortest_near (hdouble hm) .upward).pos (hdouble hm))
    have hrun : ∀ {ds : List Char}, ds ≠ [] → (∀ c ∈ ds, c.isDigit = true) → Constant.isDigitRun ds = true :=
      fun hne h => by simpa [Constant.isDigitRun, hne] using h
    refine hsigned ⟨whole, _, heq, hrun hne hwhole, ?_⟩
    cases fraction with
    | nil => exact .inl rfl
    | cons c cs => exact .inr ⟨c :: cs, rfl, hrun (List.cons_ne_nil c cs) hfraction⟩

end Decimal

/-! ## The laws of weights -/

namespace Double

open Decimal Float.Model.UnpackedFloat

/-- Bits stand for the number that the double of these bits is. -/
theorem unpack_toFloat (x : Double) : x.toFloat.toModel.unpack = unpack .binary64 x.bits.toBitVec := by
  show unpack .binary64 (pack .binary64 (unpack .binary64 x.bits.toBitVec)) = _
  by_cases h : unpack .binary64 x.bits.toBitVec = .notANumber
  · rw [h]
    rfl
  · rw [pack_unpack h]

theorem toBits_toFloat {x : Double} (h : x.toFloat.toModel.unpack ≠ .notANumber) : x.toFloat.toBits = x.bits := by
  rw [unpack_toFloat] at h
  exact congrArg UInt64.ofBitVec (pack_unpack h)

/-- A number has one sequence of bits. -/
theorem eq_of_unpack {x y : Double} (h : x.toFloat.toModel.unpack = y.toFloat.toModel.unpack)
    (hy : y.toFloat.toModel.unpack ≠ .notANumber) : x = y := by
  have hx := h ▸ hy
  rw [unpack_toFloat] at hx hy
  rw [unpack_toFloat, unpack_toFloat] at h
  have hbits : x.bits.toBitVec = y.bits.toBitVec := by rw [← pack_unpack hx, ← pack_unpack hy, h]
  exact congrArg Double.mk (UInt64.toBitVec_inj.1 hbits)

theorem unpack_one : (1.0 : Float).toModel.unpack = .finite .positive (1 <<< 52) (-52) (by decide) := rfl

/-- Only one weight equals one. -/
theorem isCertain_iff (x : Double) : Weight.isCertain x = true ↔ x = 1 := by
  constructor
  · intro h
    have hcompare : x.toFloat.toModel.unpack.compare (1.0 : Float).toModel.unpack = some .eq := beq_iff_eq.1 h
    rw [unpack_one] at hcompare
    refine eq_of_unpack (show x.toFloat.toModel.unpack = (1.0 : Float).toModel.unpack from ?_) (fun h => by cases h)
    cases hx : x.toFloat.toModel.unpack with
    | notANumber => rw [hx] at hcompare; cases hcompare
    | zero s => rw [hx] at hcompare; cases hcompare
    | infinity s => rw [hx] at hcompare; cases s <;> cases hcompare
    | finite s m e hm =>
      rw [hx] at hcompare
      cases s with
      | negative => cases hcompare
      | positive =>
        obtain ⟨he, hm⟩ := Ordering.then_eq_eq.1 (Option.some.inj hcompare)
        obtain rfl := Int.compare_eq_eq.1 he
        obtain rfl := Nat.compare_eq_eq.1 hm
        rfl
  · rintro rfl
    rfl

/-- A proper weight is a finite number. -/
theorem finite_of_isProper {x : Double} (h : Weight.isProper x = true) :
    x.toFloat.toModel.unpack ≠ .notANumber ∧ ∃ negative b, classify x.toFloat = .finite negative b := by
  obtain ⟨hlt, hle⟩ := Bool.and_eq_true_iff.1 h
  have hlt : (0.0 : Float).toModel.unpack.compare x.toFloat.toModel.unpack = some .lt :=
    lt_iff_compare.1 (of_decide_eq_true hlt)
  have hle : x.toFloat.toModel.unpack.le (1.0 : Float).toModel.unpack = true := of_decide_eq_true (of_decide_eq_true hle)
  have hnum : x.toFloat.toModel.unpack ≠ .notANumber := fun hnan => by
    rw [hnan] at hlt
    cases hlt
  refine ⟨hnum, ?_⟩
  cases hclass : classify x.toFloat with
  | nan => exact absurd (nan_spec hclass) hnum
  | infinite negative =>
    obtain ⟨-, s, hs⟩ := infinite_spec hclass
    rw [hs] at hlt hle
    cases s with
    | positive => cases hle
    | negative => cases hlt
  | finite negative b => exact ⟨negative, b, rfl⟩

/-- A number is read as it was written. -/
theorem read_text {x : Double} (h : x.toFloat.toModel.unpack ≠ .notANumber) : Weight.read? (Weight.text x) = some x := by
  show (readBits? (plain x.toFloat)).map Double.mk = some x
  rw [readBits?_plain h, toBits_toFloat h]
  rfl

theorem eq_of_text {x y : Double} (hx : x.toFloat.toModel.unpack ≠ .notANumber) (hy : y.toFloat.toModel.unpack ≠ .notANumber)
    (h : Weight.text x = Weight.text y) : x = y :=
  Option.some.inj (by rw [← read_text hx, ← read_text hy, h])

/-- Only one weight is written as one. -/
theorem eq_one_of_text {x : Double} (h : Weight.text x = Weight.text (1 : Double)) : x = 1 := by
  by_cases hnan : x.toFloat.toModel.unpack = .notANumber
  · rw [unpack_toFloat] at hnan
    have hx : x.toFloat = .ofModel (.pack .notANumber) := congrArg (fun u => Float.ofModel (.pack u)) hnan
    have htext : Weight.text x = "NaN" := (congrArg plain hx).trans rfl
    rw [htext] at h
    exact absurd h (by decide +kernel)
  · exact eq_of_text hnan (fun h => by cases h) h

theorem text_plain (x : Double) : ∀ c ∈ (Weight.text x).toList, c ≠ ',' ∧ c ≠ '(' ∧ c ≠ ')' ∧ c ≠ ':' := by
  obtain ⟨y, ys, hcons, -, hword⟩ := Constant.isPlain_iff.1 (Constant.isPlain_plain x.toFloat)
  intro c hc
  have hc' := hword c (hcons ▸ hc)
  refine ⟨?_, ?_, ?_, ?_⟩ <;> (rintro rfl; exact absurd hc' (by decide))

end Double

/-- **The doubles that a program runs on keep the laws of weights.** -/
instance : LawfulWeight Double where
  isCertain_iff := Double.isCertain_iff
  isProper_one := rfl
  text_inj _ _ hv hw h := Double.eq_of_text (Double.finite_of_isProper hv).1 (Double.finite_of_isProper hw).1 h
  text_plain := Double.text_plain

/-- **A double is written in decimals and read as it was written.** -/
instance : DecimalWeight Double where
  isNumber_text _ hw := by
    obtain ⟨-, negative, b, hclass⟩ := Double.finite_of_isProper hw
    exact Decimal.isNumber_plain hclass
  read_text _ hw := Double.read_text (Double.finite_of_isProper hw).1

end Credence
