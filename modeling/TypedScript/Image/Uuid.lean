import TypedScript.Text.Numeral

/-!
# Digests, and identifiers from content

The secure hash algorithm with digests of 160 bits. A message is padded to blocks of 64 bytes; each
block is extended to a schedule of 80 words, and 80 rounds mix it into the digest.
-/

namespace TypedScript
namespace Sha1

/-- The five words of a digest. -/
structure Digest where
  a : UInt32
  b : UInt32
  c : UInt32
  d : UInt32
  e : UInt32
  deriving DecidableEq, Repr

namespace Digest

def start : Digest := ⟨0x67452301, 0xEFCDAB89, 0x98BADCFE, 0x10325476, 0xC3D2E1F0⟩

def add (x y : Digest) : Digest := ⟨x.a + y.a, x.b + y.b, x.c + y.c, x.d + y.d, x.e + y.e⟩

def wordBytes (w : UInt32) : List UInt8 :=
  [(w >>> 24).toUInt8, (w >>> 16).toUInt8, (w >>> 8).toUInt8, w.toUInt8]

def bytes (x : Digest) : List UInt8 := [x.a, x.b, x.c, x.d, x.e].flatMap wordBytes

end Digest

def rotate (w : UInt32) (n : UInt32) : UInt32 := (w <<< n) ||| (w >>> (32 - n))

/-- The padding of a message of the given length: a one bit, zeros, and the number of its bits. -/
def padding (length : Nat) : List UInt8 :=
  let bits := length * 8
  let size := (List.range 8).reverse.map fun i => UInt8.ofNat (bits / Nat.pow 256 i % 256)
  0x80 :: List.replicate ((119 - length % 64) % 64) 0 ++ size

def words : List UInt8 → List UInt32
  | a :: b :: c :: d :: rest =>
    ((a.toUInt32 <<< 24) ||| (b.toUInt32 <<< 16) ||| (c.toUInt32 <<< 8) ||| d.toUInt32) ::
      words rest
  | _ => []

/-- Extends a schedule by a number of words, each made of four before it. -/
def extend : Nat → Array UInt32 → Array UInt32
  | 0, w => w
  | n + 1, w =>
    let earlier (back : Nat) : UInt32 := w.getD (w.size - back) 0
    extend n (w.push (rotate (earlier 3 ^^^ earlier 8 ^^^ earlier 14 ^^^ earlier 16) 1))

def roundParts (t : Nat) (x : Digest) : UInt32 × UInt32 :=
  if t < 20 then ((x.b &&& x.c) ||| (~~~x.b &&& x.d), 0x5A827999)
  else if t < 40 then (x.b ^^^ x.c ^^^ x.d, 0x6ED9EBA1)
  else if t < 60 then ((x.b &&& x.c) ||| (x.b &&& x.d) ||| (x.c &&& x.d), 0x8F1BBCDC)
  else (x.b ^^^ x.c ^^^ x.d, 0xCA62C1D6)

def rounds (t : Nat) (x : Digest) : List UInt32 → Digest
  | [] => x
  | w :: rest =>
    let (f, k) := roundParts t x
    rounds (t + 1) ⟨rotate x.a 5 + f + x.e + k + w, x.a, rotate x.b 30, x.c, x.d⟩ rest

def compress (x : Digest) (block : List UInt32) : Digest :=
  x.add (rounds 0 x (extend 64 block.toArray).toList)

/-- Mixes blocks into a digest, at most the given number of them. -/
def compressAll : Nat → Digest → List UInt32 → Digest
  | 0, x, _ => x
  | _, x, [] => x
  | n + 1, x, ws => compressAll n (compress x (ws.take 16)) (ws.drop 16)

def digest (message : List UInt8) : Digest :=
  let padded := message ++ padding message.length
  compressAll (padded.length / 64) .start (words padded)

end Sha1

/-!
## Identifiers from content

A name-based identifier of 128 bits: the digest of a name space and a content, with the bits that say
which kind of identifier it is.
-/

namespace Uuid

def objectSpace : List UInt8 :=
  [0x6B, 0xA7, 0xB8, 0x12, 0x9D, 0xAD, 0x11, 0xD1, 0x80, 0xB4, 0x00, 0xC0, 0x4F, 0xD4, 0x30, 0xC8]

/-- Sets the version to five and the variant to the usual one. -/
def stamp (bytes : List UInt8) : List UInt8 :=
  bytes.mapIdx fun i b =>
    if i = 6 then (b &&& 0x0F) ||| 0x50 else if i = 8 then (b &&& 0x3F) ||| 0x80 else b

def bytes (space content : List UInt8) : List UInt8 :=
  stamp ((Sha1.digest (space ++ content)).bytes.take 16)

def text (id : List UInt8) : String :=
  let part (start count : Nat) : String := Text.hexadecimalBytes ((id.drop start).take count)
  String.intercalate "-" [part 0 4, part 4 2, part 6 2, part 8 2, part 10 6]

def ofContent (content : List UInt8) : String := text (bytes objectSpace content)

end Uuid
end TypedScript
