/-!
# A 64-bit digest of a text

A multiplicative word hash: the state is rotated by five bits, mixed with the next word and multiplied by a fixed odd
constant.  The bytes of the text are taken as little-endian words of eight bytes, then of four, two and one, and a byte
of ones closes the text, so that no text's words are the start of another's.
-/
namespace Credence
namespace Text

namespace Digest

def multiplier : UInt64 := 0x517cc1b727220a95

/-- The state after one more word. -/
def mix (h word : UInt64) : UInt64 :=
  (((h <<< 5) ||| (h >>> 59)) ^^^ word) * multiplier

/-- Bytes read as one little-endian number. -/
def word : List UInt8 → UInt64
  | []      => 0
  | b :: bs => b.toUInt64 + 256 * word bs

/-- Absorbs a word of `n` bytes when as many are left. -/
def absorb (n : Nat) (state : UInt64 × List UInt8) : UInt64 × List UInt8 :=
  if n ≤ state.2.length then (mix state.1 (word (state.2.take n)), state.2.drop n) else state

/-- Absorbs all the whole words of eight bytes, at most `fuel` of them. -/
def wholeWords : Nat → UInt64 × List UInt8 → UInt64 × List UInt8
  | 0,        state => state
  | fuel + 1, state => if 8 ≤ state.2.length then wholeWords fuel (absorb 8 state) else state

def bytes (bs : List UInt8) : UInt64 :=
  (absorb 1 (absorb 2 (absorb 4 (wholeWords (bs.length / 8) (0, bs))))).1

end Digest

/-- The digest of a text. -/
def digest (s : String) : UInt64 :=
  Digest.mix (Digest.bytes s.toUTF8.toList) 0xff

/-- The digest of a text followed by one more word. -/
def digestWith (s : String) (salt : UInt64) : UInt64 :=
  Digest.mix (digest s) salt

end Text
end Credence
