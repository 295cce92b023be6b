/-
CilProbe/Text/Blank.lean

White space and the small text operations the configuration and rule readers
share: trimming, splitting at a separator, ASCII case folding and reading a
decimal numeral.  White space is the Unicode property of that name.
-/
namespace CilProbe.Text

/-! ### White space -/

/-- The characters with the Unicode property White_Space. -/
def isBlank (c : Char) : Bool :=
  let n := c.toNat
  (0x09 ≤ n && n ≤ 0x0D) || n == 0x20 || n == 0x85 || n == 0xA0 || n == 0x1680 ||
    (0x2000 ≤ n && n ≤ 0x200A) || n == 0x2028 || n == 0x2029 || n == 0x202F || n == 0x205F ||
    n == 0x3000

/-- Drop the white space on both sides. -/
def trimChars (cs : List Char) : List Char :=
  ((cs.dropWhile isBlank).reverse.dropWhile isBlank).reverse

/-- Drop the white space on both sides of a text. -/
def trim (s : String) : String := String.ofList (trimChars s.toList)

/-! ### Splitting -/

/-- The pieces between the separators; there is one piece more than there are
separators, so the empty text has one empty piece. -/
def splitChars (sep : Char) : List Char → List (List Char)
  | [] => [[]]
  | c :: cs =>
    if c = sep then [] :: splitChars sep cs
    else
      match splitChars sep cs with
      | [] => [[c]]
      | piece :: pieces => (c :: piece) :: pieces

/-- The pieces of a text between the separators. -/
def split (sep : Char) (s : String) : List String :=
  (splitChars sep s.toList).map String.ofList

/-! ### Letters and numerals -/

/-- The text with ASCII capitals made small and every other character kept. -/
def foldCase (s : String) : String := String.ofList (s.toList.map Char.toLower)

/-- The value of a run of decimal digits; `none` if there is none or another
character occurs. -/
def digitsValue? : List Char → Option Nat
  | [] => none
  | cs =>
    if cs.all Char.isDigit then
      some (cs.foldl (fun n c => 10 * n + (c.toNat - '0'.toNat)) 0)
    else none

/-- Read a decimal numeral, with or without a leading plus sign, that does not
exceed `limit`. -/
def readDecimal? (limit : Nat) (s : String) : Option Nat :=
  let value :=
    match s.toList with
    | '+' :: digits => digitsValue? digits
    | digits => digitsValue? digits
  value.filter (· ≤ limit)

end CilProbe.Text
