import JvmRelocation.Bytes.BigEndian
import JvmRelocation.ClassFile.Error

/-!
# Decoders over a byte cursor

A cursor is a place inside a buffer: how many bytes lie behind it, and the bytes ahead. A decoder
moves the cursor over what it read, or fails and says where. A read that asks for more bytes than
are ahead fails with the cursor where it was.
-/

namespace JvmRelocation

/-- A place inside a buffer. -/
structure Cursor where
  /-- How many bytes of the buffer lie behind. -/
  offset : Nat
  /-- The bytes ahead. -/
  rest : Bytes
deriving DecidableEq, Repr

/-- The cursor at the start of a buffer. -/
def Cursor.start (buffer : Bytes) : Cursor := ⟨0, buffer⟩

/-- The length of the whole buffer. -/
def Cursor.size (c : Cursor) : Nat := c.offset + c.rest.length

/-- A computation that reads at a cursor. -/
abbrev Decoder := EStateM FormatError Cursor

namespace Decoder

/-- The failure of a read of `n` bytes at a cursor. -/
def shortfall (c : Cursor) (n : Nat) : FormatError :=
  .truncated c.offset n c.size

/-- The next `n` bytes. -/
def take (n : Nat) : Decoder Bytes := fun c =>
  let block := c.rest.take n
  if block.length = n then .ok block ⟨c.offset + n, c.rest.drop n⟩
  else .error (shortfall c n) c

/-- The next byte. -/
def byte : Decoder UInt8 := fun c =>
  match c.rest with
  | a :: rest => .ok a ⟨c.offset + 1, rest⟩
  | _ => .error (shortfall c 1) c

/-- The next two bytes, as a word. -/
def word16 : Decoder UInt16 := fun c =>
  match c.rest with
  | a :: b :: rest => .ok (BigEndian.word16 a b) ⟨c.offset + 2, rest⟩
  | _ => .error (shortfall c 2) c

/-- The next four bytes, as a word. -/
def word32 : Decoder UInt32 := fun c =>
  match c.rest with
  | a :: b :: c' :: d :: rest => .ok (BigEndian.word32 a b c' d) ⟨c.offset + 4, rest⟩
  | _ => .error (shortfall c 4) c

/-- The next eight bytes, as a word, read half by half. -/
def word64 : Decoder UInt64 := do
  let high ← word32
  let low ← word32
  return BigEndian.word64 high low

/-- Runs a decoder `n` times behind the results already read, which `done` holds in reverse. -/
def timesFrom {α : Type} (item : Decoder α) : Nat → List α → Decoder (List α)
  | 0, done => pure done.reverse
  | n + 1, done => do
    let a ← item
    timesFrom item n (a :: done)

/-- The results of running a decoder `n` times. -/
def times {α : Type} (n : Nat) (item : Decoder α) : Decoder (List α) :=
  timesFrom item n []

/-- The result of a decoder on a whole buffer, and the bytes it left ahead. -/
def runOn {α : Type} (d : Decoder α) (buffer : Bytes) : Except FormatError (α × Bytes) :=
  match d (Cursor.start buffer) with
  | .ok a c => .ok (a, c.rest)
  | .error e _ => .error e

end Decoder

end JvmRelocation
