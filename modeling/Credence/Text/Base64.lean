/-!
# Base64 for names

The URL-safe alphabet without padding, so that an encoded text is again a bare word.  Three bytes are four characters;
one or two bytes left over are two or three characters whose low bits are zero.  `decode?` reads exactly what `encode`
writes: padding, foreign characters, a lone character and stray low bits are all refused.
-/
namespace Credence
namespace Text
namespace Base64

/-- The character that stands for six bits. -/
def digit (n : Nat) : Char :=
  if n < 26 then Char.ofNat (65 + n)
  else if n < 52 then Char.ofNat (97 + (n - 26))
  else if n < 62 then Char.ofNat (48 + (n - 52))
  else if n = 62 then '-'
  else '_'

def value? (c : Char) : Option Nat :=
  let n := c.toNat
  if 65 ≤ n ∧ n ≤ 90 then some (n - 65)
  else if 97 ≤ n ∧ n ≤ 122 then some (n - 97 + 26)
  else if 48 ≤ n ∧ n ≤ 57 then some (n - 48 + 52)
  else if c = '-' then some 62
  else if c = '_' then some 63
  else none

def encode : List UInt8 → List Char
  | a :: b :: c :: rest =>
    let n := a.toNat * 65536 + b.toNat * 256 + c.toNat
    digit (n / 262144) :: digit (n / 4096 % 64) :: digit (n / 64 % 64) :: digit (n % 64) :: encode rest
  | [a, b] =>
    let n := a.toNat * 1024 + b.toNat * 4
    [digit (n / 4096), digit (n / 64 % 64), digit (n % 64)]
  | [a] =>
    let n := a.toNat * 16
    [digit (n / 64), digit (n % 64)]
  | [] => []

/-- The bytes of a list of six-bit values. -/
def join : List Nat → Option (List UInt8)
  | w :: x :: y :: z :: rest =>
    let n := w * 262144 + x * 4096 + y * 64 + z
    (join rest).map (fun bs =>
      UInt8.ofNat (n / 65536) :: UInt8.ofNat (n / 256 % 256) :: UInt8.ofNat (n % 256) :: bs)
  | [w, x, y] =>
    let n := w * 4096 + x * 64 + y
    if n % 4 = 0 then some [UInt8.ofNat (n / 1024), UInt8.ofNat (n / 4 % 256)] else none
  | [w, x] =>
    let n := w * 64 + x
    if n % 16 = 0 then some [UInt8.ofNat (n / 16)] else none
  | [_] => none
  | [] => some []

def decode? (cs : List Char) : Option (List UInt8) :=
  (cs.mapM value?).bind join

/-- Base64 of the UTF-8 form of a text. -/
def encodeText (s : String) : String :=
  String.ofList (encode s.toUTF8.toList)

/-- The text whose UTF-8 form is encoded, if it is one. -/
def decodeText? (s : String) : Option String :=
  (decode? s.toList).bind (fun bs => String.fromUTF8? ⟨bs.toArray⟩)

end Base64
end Text
end Credence
