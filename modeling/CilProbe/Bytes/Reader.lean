/-
CilProbe/Bytes/Reader.lean

Reading bytes from left to right.  A `Cursor` is the bytes still to come
together with the number of bytes already behind it; a `Reader` moves a cursor
and answers with a value or an error.  A reader that fails leaves the cursor
where it stopped: a single read that runs past the end consumes nothing, and
what was read before it stays consumed.
-/
import CilProbe.Bytes.LittleEndian
import CilProbe.Error

namespace CilProbe

/-! ### Cursors -/

/-- A position in a run of bytes. -/
structure Cursor where
  /-- How many bytes lie behind the position. -/
  pos : Nat
  /-- The bytes ahead of it. -/
  rest : List UInt8
  deriving DecidableEq, Repr

namespace Cursor

/-- The position before the first byte. -/
def start (bytes : List UInt8) : Cursor := ⟨0, bytes⟩

/-- The position after the first `offset` bytes; only positions inside the
bytes or at their very end exist. -/
def seek (bytes : List UInt8) (offset : Nat) : Except Error Cursor :=
  if bytes.length < offset then .error .outOfBounds else .ok ⟨offset, bytes.drop offset⟩

/-- How many bytes are ahead. -/
def remaining (c : Cursor) : Nat := c.rest.length

/-- The position `n` bytes further on. -/
def advance (c : Cursor) (n : Nat) : Cursor := ⟨c.pos + n, c.rest.drop n⟩

end Cursor

/-! ### Readers -/

/-- A computation that reads from a cursor and may fail on the way. -/
abbrev Reader := ExceptT Error (StateM Cursor)

namespace Reader

variable {α : Type}

/-- Start a reader at a cursor: its result and the cursor it stopped at. -/
def start (r : Reader α) (c : Cursor) : Except Error α × Cursor := r.run c

/-- The result of a reader on bytes read from their beginning. -/
def result (r : Reader α) (bytes : List UInt8) : Except Error α :=
  (r.start (Cursor.start bytes)).1

/-- The position the reader is at. -/
def position : Reader Nat := do return (← get).pos

/-- The next byte, which stays where it is. -/
def peek : Reader UInt8 := do
  match (← get).rest with
  | [] => throw .outOfBounds
  | b :: _ => return b

/-- The next byte. -/
def byte : Reader UInt8 := do
  match ← get with
  | ⟨_, []⟩ => throw .outOfBounds
  | ⟨pos, b :: rest⟩ => do
    set (⟨pos + 1, rest⟩ : Cursor)
    return b

/-- The next `n` bytes, all of them or none. -/
def take (n : Nat) : Reader (List UInt8) := do
  let c ← get
  let front := c.rest.take n
  if front.length < n then throw .outOfBounds
  set (c.advance n)
  return front

/-- Whether at least `n` bytes are ahead. -/
def hasAtLeast (n : Nat) : Reader Bool := do
  return decide (n ≤ ((← get).rest.take n).length)

/-- The number in the next `width` bytes, least significant first. -/
def number (width : Nat) : Reader Nat := do return LittleEndian.value (← take width)

/-- The next 16-bit word. -/
def word16 : Reader UInt16 := do return UInt16.ofNat (← number 2)

/-- The next 32-bit word. -/
def word32 : Reader UInt32 := do return UInt32.ofNat (← number 4)

/-- The next 64-bit word. -/
def word64 : Reader UInt64 := do return UInt64.ofNat (← number 8)

/-- The next byte as a signed number. -/
def int8 : Reader Int8 := do return (← byte).toInt8

/-- The next 32-bit word as a signed number. -/
def int32 : Reader Int32 := do return (← word32).toInt32

/-- The next 64-bit word as a signed number. -/
def int64 : Reader Int64 := do return (← word64).toInt64

/-- Run a reader `n` times more, after the results in `done`, latest first. -/
def timesAfter (r : Reader α) : Nat → List α → Reader (List α)
  | 0, done => pure done.reverse
  | n + 1, done => do
    let a ← r
    timesAfter r n (a :: done)

/-- Run a reader `n` times and collect the results in order. -/
def times (n : Nat) (r : Reader α) : Reader (List α) := timesAfter r n []

end Reader

end CilProbe
