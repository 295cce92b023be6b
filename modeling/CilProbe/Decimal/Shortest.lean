/-
CilProbe/Decimal/Shortest.lean

The shortest decimal numeral that reads back as a given binary floating-point
number.  A finite number is `m · 2^q`; the reals that round to it form an
interval around it, whose ends belong to it exactly when `m` is even.  Going
from coarse decimal grids to fine ones, the first grid with a neighbour of the
number inside the interval gives the digits: of two such neighbours the nearer
one, and the larger one if both are equally near.

Numerals are written positionally, however many zeros that takes, with a point
only where digits follow it.
-/
namespace CilProbe.Decimal

/-! ### Binary numbers -/

/-- A binary interchange format, given by the widths of its two fields. -/
structure Format where
  /-- Bits of the fraction. -/
  fractionBits : Nat
  /-- Bits of the exponent. -/
  exponentBits : Nat

/-- The 32-bit format. -/
def Format.single : Format := ⟨23, 8⟩

/-- The 64-bit format. -/
def Format.double : Format := ⟨52, 11⟩

/-- What a pattern of bits stands for, its sign apart. -/
inductive Magnitude where
  /-- No number. -/
  | nan
  /-- A number beyond all others. -/
  | infinity
  /-- Zero. -/
  | zero
  /-- The number `mantissa · 2^exponent`; `evenGap` says that its lower
  neighbour counts as just as far away as the upper one, which fails where the
  fraction of a normal number is zero. -/
  | finite (mantissa : Nat) (exponent : Int) (evenGap : Bool)
  deriving DecidableEq, Repr

/-- Whether the sign bit is set. -/
def Format.isNegative (f : Format) (bits : Nat) : Bool :=
  bits / Nat.pow 2 (f.fractionBits + f.exponentBits) % 2 == 1

/-- Read the bits of a number below its sign bit. -/
def Format.magnitude (f : Format) (bits : Nat) : Magnitude :=
  let hidden := Nat.pow 2 f.fractionBits
  let fields := Nat.pow 2 f.exponentBits
  let fraction := bits % hidden
  let field := bits / hidden % fields
  let bias : Int := fields / 2 - 1
  if field = fields - 1 then
    if fraction = 0 then .infinity else .nan
  else if field = 0 then
    if fraction = 0 then .zero else .finite fraction (1 - bias - f.fractionBits) true
  else
    .finite (fraction + hidden) (field - bias - f.fractionBits)
      (fraction != 0)

/-! ### The interval around a number -/

/-- A number and the interval of reals that round to it, all over one
denominator. -/
structure Rounding where
  /-- Numerator of the number. -/
  value : Nat
  /-- Numerator of the lower end. -/
  low : Nat
  /-- Numerator of the upper end. -/
  high : Nat
  /-- The common denominator. -/
  denominator : Nat
  /-- Whether the ends round to the number themselves. -/
  closed : Bool

/-- The interval around `mantissa · 2^exponent`: halfway to either neighbour. -/
def Rounding.around (mantissa : Nat) (exponent : Int) (evenGap : Bool) : Rounding :=
  let up := Nat.pow 2 (exponent - 2).toNat
  { value := 4 * mantissa * up
    low := (4 * mantissa - if evenGap then 2 else 1) * up
    high := (4 * mantissa + 2) * up
    denominator := Nat.pow 2 (2 - exponent).toNat
    closed := mantissa % 2 == 0 }

/-- Whether `point`, over the same denominator, lies in the interval. -/
def Rounding.contains (r : Rounding) (point : Nat) : Bool :=
  if r.closed then r.low ≤ point && point ≤ r.high else r.low < point && point < r.high

/-- The interval with every number multiplied by ten to the power `-place` (or
the denominator by ten to the power `place`), so that the grid of step
`10^place` becomes the integers. -/
def Rounding.scaled (r : Rounding) (place : Int) : Rounding :=
  let up := Nat.pow 10 (-place).toNat
  { value := r.value * up
    low := r.low * up
    high := r.high * up
    denominator := r.denominator * Nat.pow 10 place.toNat
    closed := r.closed }

/-- The integer next to the number that lies in the interval: of two the nearer
one, and the larger of two that are equally near. -/
def Rounding.integer? (r : Rounding) : Option Nat :=
  let below := r.value / r.denominator
  let above := below + 1
  match r.contains (below * r.denominator), r.contains (above * r.denominator) with
  | true, true =>
    if 2 * (r.value % r.denominator) < r.denominator then some below else some above
  | true, false => some below
  | false, true => some above
  | false, false => none

/-- The digits of the first grid with a point in the interval, and the place of
the last of them; the grids have steps `10^place`, `10^(place - 1)` and so on,
`count` of them. -/
def Rounding.search (r : Rounding) : Nat → Int → Option (Nat × Int)
  | 0, _ => none
  | count + 1, place =>
    match (r.scaled place).integer? with
    | some digits => some (digits, place)
    | none => r.search count (place - 1)

/-! ### Numerals -/

/-- The numeral of `digits · 10^place`. -/
def positional (digits : Nat) (place : Int) : String :=
  let ds := Nat.toDigits 10 digits
  match place with
  | .ofNat zeros => String.ofList (ds ++ List.replicate zeros '0')
  | .negSucc k =>
    let behind := k + 1
    let padded := List.replicate (behind + 1 - ds.length) '0' ++ ds
    let whole := padded.length - behind
    String.ofList (padded.take whole ++ '.' :: padded.drop whole)

/-- Enough grids for every format in use: the coarsest step exceeds the largest
number, the finest is below the smallest one's interval. -/
def gridCount (f : Format) : Nat := 2 * Nat.pow 2 f.exponentBits + f.fractionBits

/-- The shortest numeral of the magnitude. -/
def Format.numeral (f : Format) : Magnitude → String
  | .nan => "NaN"
  | .infinity => "inf"
  | .zero => "0"
  | .finite mantissa exponent evenGap =>
    let r := Rounding.around mantissa exponent evenGap
    match r.search (gridCount f) (Nat.pow 2 (f.exponentBits - 1)) with
    | some (digits, place) => positional digits place
    | none => "0"

/-- The shortest numeral of a number given by its bits; what is no number has
no sign either. -/
def Format.render (f : Format) (bits : Nat) : String :=
  let magnitude := f.magnitude bits
  if f.isNegative bits && magnitude != .nan then "-" ++ f.numeral magnitude
  else f.numeral magnitude

end CilProbe.Decimal
