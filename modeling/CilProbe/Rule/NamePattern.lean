/-
CilProbe/Rule/NamePattern.lean

Patterns for dotted names.  A pattern is matched segment by segment: `**`
stands for any number of segments, and `*` within another segment for any run
of characters.  A pattern without a star is just a name.
-/
import CilProbe.Error
import CilProbe.Text.Blank

namespace CilProbe

/-! ### Segments -/

/-- One segment of a pattern. -/
inductive PatternSegment where
  /-- Any number of segments. -/
  | anySegments
  /-- One segment, in which stars stand for any characters. -/
  | glob (text : List Char)
  deriving DecidableEq, Repr

/-- The segment that a piece of pattern text stands for. -/
def PatternSegment.ofText (text : List Char) : PatternSegment :=
  if text = ['*', '*'] then .anySegments else .glob text

namespace Glob

/-- What is left of `text` after the first occurrence of `piece`. -/
def afterFirst? (piece : List Char) : List Char → Option (List Char)
  | [] => if piece.isEmpty then some [] else none
  | c :: cs =>
    if piece.isPrefixOf (c :: cs) then some ((c :: cs).drop piece.length)
    else afterFirst? piece cs

/-- Whether `text` holds the pieces one after the other, the last of them at
its very end, with any characters in between. -/
def matchPieces : List (List Char) → List Char → Bool
  | [], text => text.isEmpty
  | [last], text => last.isSuffixOf text
  | piece :: pieces, text =>
    match afterFirst? piece text with
    | some rest => matchPieces pieces rest
    | none => false

/-- Whether a segment of a name matches a segment with stars: it starts with
what stands before the first star, and the pieces between stars follow. -/
def matches_ (glob text : List Char) : Bool :=
  match Text.splitChars '*' glob with
  | [] => text.isEmpty
  | first :: pieces => first.isPrefixOf text && matchPieces pieces (text.drop first.length)

end Glob

/-- Whether `p` holds of the list or of one of its ends. -/
def anySuffix {α : Type} (p : List α → Bool) : List α → Bool
  | [] => p []
  | x :: xs => p (x :: xs) || anySuffix p xs

/-- Whether the segments of a name match those of a pattern. -/
def matchSegments : List PatternSegment → List (List Char) → Bool
  | [], names => names.isEmpty
  | .anySegments :: rest, names => anySuffix (matchSegments rest) names
  | .glob _ :: _, [] => false
  | .glob text :: rest, name :: names => Glob.matches_ text name && matchSegments rest names

/-! ### Patterns -/

/-- A pattern for dotted names. -/
structure NamePattern where
  /-- The pattern as it was written. -/
  source : String
  deriving DecidableEq, Repr, Inhabited

namespace NamePattern

/-- Read a pattern, which must not be blank. -/
def parse (text : String) : Except Error NamePattern :=
  if (Text.trimChars text.toList).isEmpty then .error (.invalidConfig "pattern" text)
  else .ok ⟨text⟩

/-- Whether the pattern is just a name. -/
def isLiteral (p : NamePattern) : Bool := !p.source.toList.contains '*'

/-- The segments of the pattern. -/
def segments (p : NamePattern) : List PatternSegment :=
  (Text.splitChars '.' p.source.toList).map PatternSegment.ofText

/-- Whether a name matches the pattern. -/
def matches_ (p : NamePattern) (name : String) : Bool :=
  if p.isLiteral then p.source == name
  else matchSegments p.segments (Text.splitChars '.' name.toList)

end NamePattern

end CilProbe
