/-
CilProbe/Body/MethodBody.lean

Method bodies as bytes.  A body is a header, the code, and data sections.  The
tiny header is one byte and says only how long the code is; the fat header
also declares the stack depth and the locals and announces sections.

`MethodBody.read` looks at a body, `BodySpec.write` makes one.
-/
import CilProbe.Body.Section

namespace CilProbe

/-! ### Reading -/

/-- What a body's bytes say about it. -/
structure MethodBody where
  /-- Bytes of the code. -/
  codeSize : Nat
  /-- Bytes of the header. -/
  headerSize : Nat
  /-- Token of the locals' signature, null where there are no locals. -/
  localsToken : Token
  /-- Declared stack depth. -/
  maxStack : UInt16
  /-- Whether the header is a fat one. -/
  isFat : Bool
  /-- Whether locals start out as zero. -/
  initLocals : Bool
  /-- Exception clauses in table order. -/
  clauses : List Clause
  deriving DecidableEq, Repr

namespace MethodBody

/-- The format mark of a tiny header. -/
def tinyFormat : Nat := 2

/-- The format mark of a fat header. -/
def fatFormat : Nat := 3

/-- The mark of a fat header that announces sections. -/
def moreSections : Nat := 0x8

/-- The mark of a fat header that asks for locals set to zero. -/
def zeroLocals : Nat := 0x10

/-- Bytes of the fat header that this library writes, and the fewest that one
may have. -/
def fatHeaderSize : Nat := 12

/-- The stack depth that a tiny header stands for. -/
def tinyMaxStack : UInt16 := 8

/-- The longest code behind a tiny header. -/
def tinyMaxCode : Nat := 0x3F

/-- Read a body with a tiny header, whose first byte is given. -/
def readTiny (first : UInt8) (data : List UInt8) : Except Error MethodBody :=
  let codeSize := first.toNat / 4
  if data.length < codeSize + 1 then .error .outOfBounds
  else
    .ok
      { codeSize, headerSize := 1, localsToken := ⟨0⟩, maxStack := tinyMaxStack, isFat := false,
        initLocals := false, clauses := [] }

/-- Read a body with a fat header. -/
def readFat (data : List UInt8) : Except Error MethodBody :=
  let field := Section.field data
  let marks := field 0 2
  let headerSize := marks / 0x1000 * 4
  let codeSize := field 4 4
  if data.length < fatHeaderSize then .error .outOfBounds
  else if headerSize < fatHeaderSize then .error (.malformed (.fatHeaderTooSmall headerSize))
  else if data.length < codeSize + headerSize then .error .outOfBounds
  else do
    let clauses ←
      if marks / moreSections % 2 == 1 then
        Section.readAll data (Section.align (headerSize + codeSize))
      else pure []
    return {
      codeSize, headerSize, clauses
      localsToken := ⟨.ofNat (field 8 4)⟩
      maxStack := .ofNat (field 2 2)
      isFat := true
      initLocals := marks / zeroLocals % 2 == 1 }

/-- Read a body's header and sections. -/
def read (data : List UInt8) : Except Error MethodBody :=
  match data with
  | [] => .error (.malformed .noBodyBytes)
  | first :: _ =>
    if first.toNat % 4 = tinyFormat then readTiny first data
    else if first.toNat % 4 = fatFormat then readFat data
    else .error (.malformed (.unknownHeader first))

/-- Bytes of header and code. -/
def size (b : MethodBody) : Nat := b.codeSize + b.headerSize

/-- The code in the bytes of a body. -/
def code (b : MethodBody) (data : List UInt8) : Except Error (List UInt8) :=
  let code := (data.drop b.headerSize).take b.codeSize
  if data.length < b.size then .error .outOfBounds else .ok code

/-- The signature of the locals, where there are any. -/
def localSignature? (b : MethodBody) : Option Token :=
  if b.localsToken.isNull then none else some b.localsToken

end MethodBody

/-! ### Writing -/

/-- What a body is to hold. -/
structure BodySpec where
  /-- The code. -/
  code : List UInt8
  /-- Stack depth to declare. -/
  maxStack : UInt16 := MethodBody.tinyMaxStack
  /-- Signature of the locals; the null token counts as none. -/
  localSignature : Option Token := none
  /-- Whether locals start out as zero. -/
  initLocals : Bool := false
  /-- Whether the header must be a fat one. -/
  fat : Bool := false
  /-- Exception clauses in table order. -/
  clauses : List Clause := []

namespace BodySpec

/-- The token of the locals' signature, null where there are no locals. -/
def localsToken (s : BodySpec) : Token := s.localSignature.getD ⟨0⟩

/-- Whether a tiny header can say everything there is to say. -/
def isTiny (s : BodySpec) : Bool :=
  !s.fat && s.code.length ≤ MethodBody.tinyMaxCode && s.maxStack ≤ MethodBody.tinyMaxStack &&
    s.localsToken.isNull && !s.initLocals && s.clauses.isEmpty

/-- The marks in the first two bytes of a fat header, which also give its size
in units of four bytes. -/
def marks (s : BodySpec) : Nat :=
  MethodBody.fatFormat + (if s.initLocals then MethodBody.zeroLocals else 0) +
    (if s.clauses.isEmpty then 0 else MethodBody.moreSections) +
    MethodBody.fatHeaderSize / 4 * 0x1000

/-- The fat header. -/
def fatHeader (s : BodySpec) : List UInt8 :=
  LittleEndian.encode 2 s.marks ++ LittleEndian.ofUInt16 s.maxStack ++
    LittleEndian.encode 4 s.code.length ++ LittleEndian.ofUInt32 s.localsToken.value

/-- Zero bytes up to the next multiple of four. -/
def padding (size : Nat) : List UInt8 := List.replicate (Section.align size - size) 0

/-- The bytes of the body, with the smallest header that will do. -/
def write (s : BodySpec) : Except Error (List UInt8) :=
  if s.isTiny then .ok (UInt8.ofNat (s.code.length * 4 + MethodBody.tinyFormat) :: s.code)
  else if Offset.last < s.code.length then .error (.malformed (.codeTooLong s.code.length))
  else
    let front := s.fatHeader ++ s.code
    if s.clauses.isEmpty then .ok front
    else do
      let table ← Section.write s.clauses
      return front ++ padding front.length ++ table

end BodySpec

end CilProbe
