/-
CilProbe/Text/Radix.lean

Hexadecimal numerals, plain and zero-padded, as every message and display of
the library writes them: instruction positions are padded to four digits,
tokens to eight, and ids are written without padding behind `0x`.
-/
namespace CilProbe.Text

/-! ### Digits -/

/-- The base-sixteen digits of `n`, lower case, most significant first and
without leading zeros; zero is the single digit `0`. -/
def hexDigits (n : Nat) : List Char := Nat.toDigits 16 n

/-- Fill `digits` up with zeros on the left to at least `width` digits; longer
numerals are left alone. -/
def padZeros (width : Nat) (digits : List Char) : List Char :=
  List.replicate (width - digits.length) '0' ++ digits

/-! ### Numerals -/

/-- The plain lower-case numeral behind its `0x` mark. -/
def hex (n : Nat) : String := String.ofList ('0' :: 'x' :: hexDigits n)

/-- The numeral padded to `width` digits, lower case and without a mark. -/
def hexPadded (width n : Nat) : String := String.ofList (padZeros width (hexDigits n))

/-- The numeral padded to `width` digits in upper case, without a mark. -/
def hexPaddedUpper (width n : Nat) : String :=
  String.ofList ((padZeros width (hexDigits n)).map Char.toUpper)

/-- The name of a code position: `IL_` and at least four digits. -/
def position (offset : Nat) : String := "IL_" ++ hexPadded 4 offset

end CilProbe.Text
