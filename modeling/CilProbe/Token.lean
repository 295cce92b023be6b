/-
CilProbe/Token.lean

Metadata tokens.  A token is one 32-bit word: the table number in the top
byte, the row number in the 24 bits below it.  The zero word is the null token,
which refers to nothing.
-/
import CilProbe.Text.Radix

namespace CilProbe

/-- A metadata token, kept as the word it is written as. -/
structure Token where
  /-- The whole word: table number, then row number. -/
  value : UInt32
  deriving DecidableEq, Hashable, Repr, Inhabited

namespace Token

/-! ### Tokens as keys

Equality of tokens is equality of words, and equal tokens have one hash. -/

instance : EquivBEq Token := inferInstance

instance : LawfulHashable Token := inferInstance


/-! ### Table numbers -/

/-- Table number of type references. -/
def typeRefTable : UInt8 := 0x01

/-- Table number of type definitions. -/
def typeDefTable : UInt8 := 0x02

/-- Table number of method definitions. -/
def methodDefTable : UInt8 := 0x06

/-- Table number of member references. -/
def memberRefTable : UInt8 := 0x0A

/-- Table number of stand-alone signatures. -/
def standAloneSigTable : UInt8 := 0x11

/-- Table number of type specifications. -/
def typeSpecTable : UInt8 := 0x1B

/-- Table number of assembly references. -/
def assemblyRefTable : UInt8 := 0x23

/-- Table number of instantiated generic methods. -/
def methodSpecTable : UInt8 := 0x2B

/-! ### Parts -/

/-- The token of row `row` in `table`; only the low 24 bits of the row fit. -/
def ofParts (table : UInt8) (row : Nat) : Token :=
  ⟨UInt32.ofNat (table.toNat * 0x1000000 + row % 0x1000000)⟩

/-- The table a token belongs to. -/
def table (t : Token) : UInt8 := UInt8.ofNat (t.value.toNat / 0x1000000)

/-- The row a token names. -/
def row (t : Token) : Nat := t.value.toNat % 0x1000000

/-- Whether this is the null token, which refers to nothing. -/
def isNull (t : Token) : Bool := t.value == 0

/-- Whether the token can be called: a method definition, a member reference or
an instantiated generic method. -/
def isMethodLike (t : Token) : Bool :=
  t.table == methodDefTable || t.table == memberRefTable || t.table == methodSpecTable

/-! ### Text -/

/-- The word as eight hexadecimal digits. -/
def display (t : Token) : String := "0x" ++ Text.hexPadded 8 t.value.toNat

/-- The word together with its two parts. -/
def describe (t : Token) : String :=
  s!"Token({t.display}, table: 0x{Text.hexPadded 2 t.table.toNat}, row: {t.row})"

end Token

end CilProbe
