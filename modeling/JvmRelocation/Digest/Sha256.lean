import JvmRelocation.Bytes.BigEndian

/-!
# SHA-256

The message is padded with a one bit, zeros and its length in bits to a multiple of 64 bytes. Every
block of 64 bytes is spread over 64 words and stirred into eight working words, which start from
fixed values and end as the 32 bytes of the digest.
-/

namespace JvmRelocation.Sha256

/-- The round constants. -/
def roundConstants : List UInt32 :=
  [0x428a2f98, 0x71374491, 0xb5c0fbcf, 0xe9b5dba5, 0x3956c25b, 0x59f111f1, 0x923f82a4, 0xab1c5ed5,
    0xd807aa98, 0x12835b01, 0x243185be, 0x550c7dc3, 0x72be5d74, 0x80deb1fe, 0x9bdc06a7, 0xc19bf174,
    0xe49b69c1, 0xefbe4786, 0x0fc19dc6, 0x240ca1cc, 0x2de92c6f, 0x4a7484aa, 0x5cb0a9dc, 0x76f988da,
    0x983e5152, 0xa831c66d, 0xb00327c8, 0xbf597fc7, 0xc6e00bf3, 0xd5a79147, 0x06ca6351, 0x14292967,
    0x27b70a85, 0x2e1b2138, 0x4d2c6dfc, 0x53380d13, 0x650a7354, 0x766a0abb, 0x81c2c92e, 0x92722c85,
    0xa2bfe8a1, 0xa81a664b, 0xc24b8b70, 0xc76c51a3, 0xd192e819, 0xd6990624, 0xf40e3585, 0x106aa070,
    0x19a4c116, 0x1e376c08, 0x2748774c, 0x34b0bcb5, 0x391c0cb3, 0x4ed8aa4a, 0x5b9cca4f, 0x682e6ff3,
    0x748f82ee, 0x78a5636f, 0x84c87814, 0x8cc70208, 0x90befffa, 0xa4506ceb, 0xbef9a3f7, 0xc67178f2]

/-- The eight working words. -/
structure State where
  a : UInt32
  b : UInt32
  c : UInt32
  d : UInt32
  e : UInt32
  f : UInt32
  g : UInt32
  h : UInt32

/-- The working words before the first block. -/
def State.initial : State :=
  ⟨0x6a09e667, 0xbb67ae85, 0x3c6ef372, 0xa54ff53a, 0x510e527f, 0x9b05688c, 0x1f83d9ab, 0x5be0cd19⟩

/-- Word by word sum. -/
def State.add (s t : State) : State :=
  ⟨s.a + t.a, s.b + t.b, s.c + t.c, s.d + t.d, s.e + t.e, s.f + t.f, s.g + t.g, s.h + t.h⟩

/-- The bytes of the working words. -/
def State.bytes (s : State) : Bytes :=
  [s.a, s.b, s.c, s.d, s.e, s.f, s.g, s.h].flatMap BigEndian.bytes32

/-- Rotation to the right. -/
def rotate (x n : UInt32) : UInt32 :=
  (x >>> n) ||| (x <<< (32 - n))

/-- One round with its message word and round constant. -/
def round (s : State) (wk : UInt32 × UInt32) : State :=
  let choice := (s.e &&& s.f) ^^^ ((~~~ s.e) &&& s.g)
  let majority := (s.a &&& s.b) ^^^ (s.a &&& s.c) ^^^ (s.b &&& s.c)
  let t1 := s.h + (rotate s.e 6 ^^^ rotate s.e 11 ^^^ rotate s.e 25) + choice + wk.2 + wk.1
  let t2 := (rotate s.a 2 ^^^ rotate s.a 13 ^^^ rotate s.a 22) + majority
  ⟨t1 + t2, s.a, s.b, s.c, s.d + t1, s.e, s.f, s.g⟩

/-- The words of a block, four bytes each. -/
def blockWords : Bytes → List UInt32
  | a :: b :: c :: d :: rest => BigEndian.word32 a b c d :: blockWords rest
  | _ => []

/-- Extends message words, held newest first, by `n` words. -/
def extend : Nat → List UInt32 → List UInt32
  | 0, words => words
  | n + 1, words =>
    let w2 := words.getD 1 0
    let w7 := words.getD 6 0
    let w15 := words.getD 14 0
    let w16 := words.getD 15 0
    let low := rotate w15 7 ^^^ rotate w15 18 ^^^ (w15 >>> 3)
    let high := rotate w2 17 ^^^ rotate w2 19 ^^^ (w2 >>> 10)
    extend n ((w16 + low + w7 + high) :: words)

/-- The 64 message words of a block. -/
def schedule (block : Bytes) : List UInt32 :=
  (extend 48 (blockWords block).reverse).reverse

/-- Stirs one block into the working words. -/
def compress (s : State) (block : Bytes) : State :=
  s.add (((schedule block).zip roundConstants).foldl round s)

/-- Stirs the next `n` blocks of a stream into the working words. -/
def absorb : Nat → State → Bytes → State
  | 0, s, _ => s
  | n + 1, s, stream => absorb n (compress s (stream.take 64)) (stream.drop 64)

/-- The padding behind a message of `n` bytes. -/
def padding (n : Nat) : Bytes :=
  0x80 :: (List.replicate ((119 - n % 64) % 64) 0 ++ BigEndian.bytes64 (UInt64.ofNat (8 * n)))

/-- The digest of a message, 32 bytes. -/
def digest (message : Bytes) : Bytes :=
  let n := message.length
  let stream := message ++ padding n
  (absorb (stream.length / 64) State.initial stream).bytes

end JvmRelocation.Sha256
