import Credence.Decimal.Whole
import Credence.Text.Digest
/-!
# Bloom filters

A set of texts kept as a few marked positions for each.  That a text is not in the set is known for certain as soon as
one of its positions is not marked; that it is in the set is only likely.  The marks are the bits of words of 64, as many
words as the positions need, so that a position that is one always has its word.
-/
namespace Credence

/-- The number of words that hold so many bits. -/
def wordsFor (bits : Nat) : Nat := (bits + 63) / 64

structure Bloom where
  /-- The number of positions. -/
  bits     : Nat
  bits_pos : 0 < bits
  words    : Vector UInt64 (wordsFor bits)
  /-- How many positions a text has. -/
  hashes   : Nat
  /-- Where the positions of a text start, and how far they are apart. -/
  steps    : String → UInt64 × UInt64

namespace Bloom

/-! ## Sizes -/

def logTwo : Float := 0.6931471805599453

/-- Brings `x` into the range from `low` to `high`; what is no number stays so. -/
def clamp (low high x : Float) : Float := if x < low then low else if high < x then high else x

/-- At least 64 positions; more when as many texts are to be told apart at the given rate of mistakes. -/
def bitsFor (items rate : Float) : UInt64 :=
  let m := (-(items * rate.log) / (logTwo * logTwo)).ceil
  (if m > 64.0 then m else 64.0).toUInt64

theorem le_bitsFor (items rate : Float) : 64 ≤ (bitsFor items rate).toNat := by
  unfold bitsFor
  simp only
  split
  · exact Decimal.le_toUInt64_of_lt ‹_›
  · decide

def hashesFor (items : Float) (bits : UInt64) : Nat :=
  (clamp 1.0 16.0 ((bits.toFloat / items) * logTwo).round).toUInt64.toNat

/-! ## Filters without marks -/

def blank (bits : Nat) (h : 0 < bits) (hashes : Nat) (steps : String → UInt64 × UInt64) : Bloom :=
  ⟨bits, h, .replicate _ 0, hashes, steps⟩

/-- What the second digest of a text is salted with. -/
def salt : UInt64 := 0x9e3779b97f4a7c15

/-- The positions of a text start at its digest, and are at odd distances. -/
def digests (key : String) : UInt64 × UInt64 := (Text.digest key, Text.digestWith key salt ||| 1)

/-- An empty filter for about `expected` texts. -/
def sized (expected : Nat) (rate : Float) : Bloom :=
  let items := (UInt64.ofNat (max expected 1)).toFloat
  let bits := bitsFor items (clamp 1e-9 0.5 rate)
  blank bits.toNat (Nat.lt_of_lt_of_le (by decide) (le_bitsFor _ _)) (hashesFor items bits) digests

/-! ## Marks -/

/-- The positions of a text. -/
def positions (b : Bloom) (key : String) : List (Fin b.bits) :=
  let (start, stride) := b.steps key
  (List.range b.hashes).map (fun i => ⟨(start + UInt64.ofNat i * stride).toNat % b.bits, Nat.mod_lt _ b.bits_pos⟩)

/-- The word of a position is one of the words. -/
theorem word_lt {bits : Nat} (p : Fin bits) : p.val / 64 < wordsFor bits := by
  have hp := p.isLt
  unfold wordsFor
  omega

/-- The bit of a position in its word. -/
def bit {bits : Nat} (p : Fin bits) : UInt64 := 1 <<< UInt64.ofNat (p.val % 64)

def mark {bits : Nat} (words : Vector UInt64 (wordsFor bits)) (p : Fin bits) : Vector UInt64 (wordsFor bits) :=
  have := word_lt p
  words.set (p.val / 64) (words[p.val / 64] ||| bit p)

def isMarked {bits : Nat} (words : Vector UInt64 (wordsFor bits)) (p : Fin bits) : Bool :=
  have := word_lt p
  words[p.val / 64] &&& bit p != 0

def insert (b : Bloom) (key : String) : Bloom :=
  { b with words := (b.positions key).foldl mark b.words }

def mightContain (b : Bloom) (key : String) : Bool := (b.positions key).all (isMarked b.words)

end Bloom
end Credence
