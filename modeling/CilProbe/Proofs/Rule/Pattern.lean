/-
CilProbe/Proofs/Rule/Pattern.lean

What a name pattern means.  A name matches when it is the pattern with segments in the
place of each segment `**` and with runs of characters in the place of the other stars
(`NamePattern.Obtains`).  The matcher never goes back inside a segment: it takes the first
place where a piece between two stars occurs.  That is enough because a star stands in front
of whatever is still to be found, and a star can take more characters (`Glob.Spread.prepend`).
-/
import CilProbe.Rule.NamePattern
import Mathlib.Data.List.Basic

namespace CilProbe

/-! ### Pieces of a text -/

namespace Text

/-- Splitting is that of the library. -/
theorem splitChars_eq_splitOn (sep : Char) (cs : List Char) :
    splitChars sep cs = cs.splitOn sep := by
  rw [List.splitOn_eq_splitOnP]
  induction cs with
  | nil => rfl
  | cons c cs ih =>
    rw [List.splitOnP_cons_eq_if_modifyHead, splitChars, ih]
    by_cases hc : c = sep
    · rw [if_pos hc, if_pos (beq_iff_eq.mpr hc)]
    · rw [if_neg hc, if_neg fun h => hc (beq_iff_eq.mp h)]
      cases hpieces : cs.splitOnP (· == sep) with
      | nil => exact absurd hpieces (List.splitOnP_ne_nil _ _)
      | cons piece pieces => rfl

/-- A text has at least one piece. -/
theorem exists_splitChars (sep : Char) (cs : List Char) :
    ∃ piece pieces, splitChars sep cs = piece :: pieces := by
  refine List.exists_cons_of_ne_nil ?_
  rw [splitChars_eq_splitOn, List.splitOn_eq_splitOnP]
  exact List.splitOnP_ne_nil _ _

theorem splitChars_cons_of_ne {sep c : Char} (hc : c ≠ sep) {cs piece : List Char}
    {pieces : List (List Char)} (h : splitChars sep cs = piece :: pieces) :
    splitChars sep (c :: cs) = (c :: piece) :: pieces := by
  show (if c = sep then _ else _) = _
  rw [if_neg hc, h]

/-- The characters of a piece are some of those of the text, and none is the separator. -/
theorem mem_of_mem_splitChars {sep c : Char} {cs piece : List Char}
    (h : piece ∈ splitChars sep cs) (hc : c ∈ piece) : c ∈ cs ∧ c ≠ sep := by
  induction cs generalizing piece with
  | nil => cases List.mem_singleton.mp h; cases hc
  | cons d cs ih =>
    obtain ⟨first, pieces, hsplit⟩ := exists_splitChars sep cs
    have hlater : ∀ q ∈ first :: pieces, c ∈ q → c ∈ d :: cs ∧ c ≠ sep := fun q hq hcq =>
      (ih (hsplit ▸ hq) hcq).imp_left (List.mem_cons_of_mem d)
    by_cases hd : d = sep
    · rw [splitChars, if_pos hd, hsplit] at h
      rcases List.mem_cons.mp h with rfl | hmem
      · cases hc
      · exact hlater piece hmem hc
    · rw [splitChars_cons_of_ne hd hsplit] at h
      rcases List.mem_cons.mp h with rfl | hmem
      · rcases List.mem_cons.mp hc with rfl | hc
        · exact ⟨List.mem_cons_self, hd⟩
        · exact hlater first List.mem_cons_self hc
      · exact hlater piece (List.mem_cons_of_mem first hmem) hc

/-- The dot-separated segments of a text: at least one, none of them with a dot in it, and
the text is what they make with dots in between. -/
structure Dotted (text : List Char) (segments : List (List Char)) : Prop where
  ne_nil : segments ≠ []
  dotless : ∀ segment ∈ segments, '.' ∉ segment
  joined : ['.'].intercalate segments = text

/-- A text has its segments, and splitting finds them. -/
theorem dotted_iff {text : List Char} {segments : List (List Char)} :
    Dotted text segments ↔ splitChars '.' text = segments := by
  constructor
  · intro h
    rw [splitChars_eq_splitOn, ← h.joined]
    exact List.splitOn_intercalate '.' h.dotless h.ne_nil
  · rintro rfl
    obtain ⟨piece, pieces, hsplit⟩ := exists_splitChars '.' text
    refine ⟨hsplit ▸ List.cons_ne_nil piece pieces, fun segment hsegment hdot => ?_, ?_⟩
    · exact (mem_of_mem_splitChars hsegment hdot).2 rfl
    · rw [splitChars_eq_splitOn]
      exact List.intercalate_splitOn '.'

end Text

/-! ### One segment -/

namespace Glob

/-- `Fills glob text`: the text is the segment with a run of characters in the place of each
star, and no run has a dot in it. -/
inductive Fills : List Char → List Char → Prop
  | nil : Fills [] []
  | keep {c : Char} {glob text : List Char} (hc : c ≠ '*') (h : Fills glob text) :
      Fills (c :: glob) (c :: text)
  | star {glob text : List Char} (run : List Char) (hrun : '.' ∉ run) (h : Fills glob text) :
      Fills ('*' :: glob) (run ++ text)

/-- `Spread pieces text`: the pieces stand in the text one after the other, the last of them
at its end, with a run of characters in front of each. -/
def Spread : List (List Char) → List Char → Prop
  | [], text => text = []
  | piece :: pieces, text => ∃ run rest, text = run ++ (piece ++ rest) ∧ Spread pieces rest

/-- The run in front of the first piece can be longer. -/
theorem Spread.prepend {pieces : List (List Char)} {text : List Char} (h : Spread pieces text)
    (hpieces : pieces ≠ []) (more : List Char) : Spread pieces (more ++ text) := by
  cases pieces with
  | nil => exact absurd rfl hpieces
  | cons piece pieces =>
    obtain ⟨run, rest, rfl, hrest⟩ := h
    exact ⟨more ++ run, rest, (List.append_assoc more run _).symm, hrest⟩

/-- A segment is filled by what its first piece and the others, spread out, make. -/
theorem fills_iff {glob first text : List Char} {pieces : List (List Char)}
    (hsplit : Text.splitChars '*' glob = first :: pieces) (htext : '.' ∉ text) :
    Fills glob text ↔ ∃ rest, text = first ++ rest ∧ Spread pieces rest := by
  induction glob generalizing first pieces text with
  | nil =>
    cases hsplit
    constructor
    · rintro ⟨⟩
      exact ⟨[], rfl, rfl⟩
    · rintro ⟨rest, rfl, rfl⟩
      exact .nil
  | cons c glob ih =>
    obtain ⟨next, others, hglob⟩ := Text.exists_splitChars '*' glob
    by_cases hc : c = '*'
    · -- a star stands for the run in front of the next piece
      subst hc
      rw [Text.splitChars, if_pos rfl, hglob] at hsplit
      cases hsplit
      constructor
      · intro h
        cases h with
        | keep hc => exact absurd rfl hc
        | star run hrun h =>
          obtain ⟨rest, rfl, hspread⟩ :=
            (ih hglob fun hmem => htext (List.mem_append_right run hmem)).mp h
          exact ⟨_, rfl, run, rest, rfl, hspread⟩
      · rintro ⟨_, rfl, run, rest, rfl, hspread⟩
        refine .star run (fun hmem => htext (List.mem_append_left _ hmem)) ?_
        exact (ih hglob fun hmem => htext (List.mem_append_right run hmem)).mpr
          ⟨rest, rfl, hspread⟩
    · -- any other character stands for itself, in the first piece
      rw [Text.splitChars_cons_of_ne hc hglob] at hsplit
      cases hsplit
      constructor
      · intro h
        cases h with
        | star => exact absurd rfl hc
        | keep _ h =>
          obtain ⟨rest, rfl, hspread⟩ :=
            (ih hglob fun hmem => htext (List.mem_cons_of_mem c hmem)).mp h
          exact ⟨rest, rfl, hspread⟩
      · rintro ⟨rest, rfl, hspread⟩
        refine .keep hc ?_
        exact (ih hglob fun hmem => htext (List.mem_cons_of_mem c hmem)).mpr
          ⟨rest, rfl, hspread⟩

/-! ### The first occurrence of a piece -/

theorem exists_of_afterFirst? {piece text rest : List Char}
    (h : afterFirst? piece text = some rest) : ∃ run, text = run ++ (piece ++ rest) := by
  induction text with
  | nil =>
    unfold afterFirst? at h
    split at h
    · next hpiece => cases List.isEmpty_iff.mp hpiece; cases h; exact ⟨[], rfl⟩
    · cases h
  | cons c text ih =>
    unfold afterFirst? at h
    split at h
    · next hpiece =>
      cases h
      exact ⟨[], (List.prefix_iff_eq_append.mp (List.isPrefixOf_iff_prefix.mp hpiece)).symm⟩
    · obtain ⟨run, rfl⟩ := ih h
      exact ⟨c :: run, rfl⟩

/-- Where a piece occurs it has a first occurrence, and what follows any other is the end of
what follows the first. -/
theorem exists_afterFirst? (run piece rest : List Char) :
    ∃ more, afterFirst? piece (run ++ (piece ++ rest)) = some (more ++ rest) := by
  generalize htext : run ++ (piece ++ rest) = text
  induction text generalizing run with
  | nil =>
    obtain ⟨-, hpiece⟩ := List.append_eq_nil_iff.mp htext
    obtain ⟨rfl, rfl⟩ := List.append_eq_nil_iff.mp hpiece
    exact ⟨[], rfl⟩
  | cons c text ih =>
    unfold afterFirst?
    by_cases hprefix : piece.isPrefixOf (c :: text) = true
    · rw [if_pos hprefix]
      -- the first occurrence is here, so it ends no later than any other
      obtain ⟨more, hmore⟩ : rest <:+ (c :: text).drop piece.length := by
        refine List.suffix_of_suffix_length_le ⟨run ++ piece, ?_⟩
          (List.drop_suffix piece.length (c :: text)) ?_
        · rw [← htext, List.append_assoc]
        · rw [List.length_drop, ← htext, List.length_append, List.length_append]
          omega
      exact ⟨more, congrArg some hmore.symm⟩
    · rw [if_neg hprefix]
      cases run with
      | nil =>
        refine absurd (List.isPrefixOf_iff_prefix.mpr ?_) hprefix
        exact ⟨rest, htext⟩
      | cons d run =>
        cases htext
        exact ih run rfl

/-- Taking the first occurrence of each piece finds the pieces wherever they are. -/
theorem matchPieces_iff (pieces : List (List Char)) (text : List Char) :
    matchPieces pieces text = true ↔ Spread pieces text := by
  induction pieces generalizing text with
  | nil => exact List.isEmpty_iff
  | cons piece pieces ih =>
    cases pieces with
    | nil =>
      refine List.isSuffixOf_iff_suffix.trans ⟨?_, ?_⟩
      · rintro ⟨run, rfl⟩
        exact ⟨run, [], by rw [List.append_nil], rfl⟩
      · rintro ⟨run, rest, rfl, rfl⟩
        exact ⟨run, by rw [List.append_nil]⟩
    | cons next pieces =>
      unfold matchPieces
      constructor
      · intro h
        cases hfirst : afterFirst? piece text with
        | none => rw [hfirst] at h; cases h
        | some rest =>
          rw [hfirst] at h
          obtain ⟨run, htext⟩ := exists_of_afterFirst? hfirst
          exact ⟨run, rest, htext, (ih rest).mp h⟩
      · rintro ⟨run, rest, rfl, hrest⟩
        obtain ⟨more, hfirst⟩ := exists_afterFirst? run piece rest
        rw [hfirst]
        exact (ih (more ++ rest)).mpr (hrest.prepend (List.cons_ne_nil next pieces) more)

/-- The matcher of one segment finds out whether the text fills it. -/
theorem matches_iff_fills (glob : List Char) {text : List Char} (htext : '.' ∉ text) :
    matches_ glob text = true ↔ Fills glob text := by
  obtain ⟨first, pieces, hsplit⟩ := Text.exists_splitChars '*' glob
  rw [fills_iff hsplit htext]
  unfold matches_
  rw [hsplit]
  show (first.isPrefixOf text && _) = true ↔ _
  rw [Bool.and_eq_true, List.isPrefixOf_iff_prefix, matchPieces_iff]
  constructor
  · rintro ⟨⟨rest, rfl⟩, hrest⟩
    rw [List.drop_left] at hrest
    exact ⟨rest, rfl, hrest⟩
  · rintro ⟨rest, rfl, hrest⟩
    rw [List.drop_left]
    exact ⟨List.prefix_append first rest, hrest⟩

/-- A segment without a star is filled by itself. -/
theorem fills_iff_eq {glob text : List Char} (hglob : '*' ∉ glob) :
    Fills glob text ↔ text = glob := by
  constructor
  · intro h
    induction h with
    | nil => rfl
    | keep _ _ ih => rw [ih fun hmem => hglob (List.mem_cons_of_mem _ hmem)]
    | star => exact absurd List.mem_cons_self hglob
  · rintro rfl
    induction text with
    | nil => exact .nil
    | cons c text ih =>
      obtain ⟨hc, htext⟩ := not_or.mp (mt List.mem_cons.mpr hglob)
      exact .keep (Ne.symm hc) (ih htext)

end Glob

/-! ### Names -/

namespace NamePattern

/-- `Obtains pattern names`: the segments of a name are those of the pattern with any segments
in the place of each `**` and every other segment filled. -/
inductive Obtains : List (List Char) → List (List Char) → Prop
  | nil : Obtains [] []
  | any {pattern names : List (List Char)} (run : List (List Char))
      (hrun : ∀ segment ∈ run, '.' ∉ segment) (h : Obtains pattern names) :
      Obtains (['*', '*'] :: pattern) (run ++ names)
  | one {segment name : List Char} {pattern names : List (List Char)}
      (hsegment : segment ≠ ['*', '*']) (hname : Glob.Fills segment name)
      (h : Obtains pattern names) : Obtains (segment :: pattern) (name :: names)

theorem obtains_cons_iff {segment : List Char} {pattern names : List (List Char)}
    (hsegment : segment ≠ ['*', '*']) :
    Obtains (segment :: pattern) names ↔
      ∃ name rest, names = name :: rest ∧ Glob.Fills segment name ∧ Obtains pattern rest := by
  constructor
  · intro h
    cases h with
    | any => exact absurd rfl hsegment
    | one _ hname h => exact ⟨_, _, rfl, hname, h⟩
  · rintro ⟨name, rest, rfl, hname, h⟩
    exact .one hsegment hname h

end NamePattern

theorem PatternSegment.ofText_of_ne {text : List Char} (h : text ≠ ['*', '*']) :
    ofText text = .glob text :=
  if_neg h

theorem anySuffix_iff {α : Type} {p : List α → Bool} {xs : List α} :
    anySuffix p xs = true ↔ ∃ run rest, xs = run ++ rest ∧ p rest = true := by
  induction xs with
  | nil =>
    constructor
    · exact fun h => ⟨[], [], rfl, h⟩
    · rintro ⟨run, rest, hnil, h⟩
      obtain ⟨-, rfl⟩ := List.append_eq_nil_iff.mp hnil.symm
      exact h
  | cons x xs ih =>
    unfold anySuffix
    rw [Bool.or_eq_true, ih]
    constructor
    · rintro (h | ⟨run, rest, rfl, h⟩)
      · exact ⟨[], x :: xs, rfl, h⟩
      · exact ⟨x :: run, rest, rfl, h⟩
    · rintro ⟨run, rest, hxs, h⟩
      cases run with
      | nil => exact .inl (hxs ▸ h)
      | cons y run =>
        cases hxs
        exact .inr ⟨run, rest, rfl, h⟩

/-- The matcher of segments finds out whether a name is obtained from a pattern. -/
theorem matchSegments_iff (pattern : List (List Char)) {names : List (List Char)}
    (hnames : ∀ name ∈ names, '.' ∉ name) :
    matchSegments (pattern.map PatternSegment.ofText) names = true ↔
      NamePattern.Obtains pattern names := by
  induction pattern generalizing names with
  | nil =>
    refine List.isEmpty_iff.trans ⟨?_, ?_⟩
    · rintro rfl
      exact .nil
    · rintro ⟨⟩
      rfl
  | cons segment pattern ih =>
    rw [List.map_cons]
    by_cases hany : segment = ['*', '*']
    · -- the rest of the pattern is tried behind every number of names
      subst hany
      show anySuffix (matchSegments (pattern.map PatternSegment.ofText)) names = true ↔ _
      rw [anySuffix_iff]
      constructor
      · rintro ⟨run, rest, rfl, h⟩
        refine .any run (fun s hs => hnames s (List.mem_append_left rest hs)) ?_
        exact (ih fun s hs => hnames s (List.mem_append_right run hs)).mp h
      · intro h
        cases h with
        | any run _ h =>
          exact ⟨run, _, rfl, (ih fun s hs => hnames s (List.mem_append_right run hs)).mpr h⟩
        | one hsegment => exact absurd rfl hsegment
    · -- one segment for one name
      rw [PatternSegment.ofText_of_ne hany, NamePattern.obtains_cons_iff hany]
      cases names with
      | nil =>
        refine iff_of_false Bool.false_ne_true ?_
        rintro ⟨name, rest, ⟨⟩, -⟩
      | cons name names =>
        have hname : '.' ∉ name := hnames name List.mem_cons_self
        have hrest : ∀ n ∈ names, '.' ∉ n := fun n hn => hnames n (List.mem_cons_of_mem name hn)
        show (Glob.matches_ segment name && _) = true ↔ _
        rw [Bool.and_eq_true, Glob.matches_iff_fills segment hname, ih hrest]
        constructor
        · rintro ⟨hfills, h⟩
          exact ⟨name, names, rfl, hfills, h⟩
        · rintro ⟨_, _, ⟨⟩, hfills, h⟩
          exact ⟨hfills, h⟩

namespace NamePattern

/-- Without a star only the segments themselves are obtained. -/
theorem obtains_iff_eq {pattern names : List (List Char)}
    (hpattern : ∀ segment ∈ pattern, '*' ∉ segment) : Obtains pattern names ↔ names = pattern := by
  constructor
  · intro h
    induction h with
    | nil => rfl
    | any => exact absurd List.mem_cons_self (hpattern _ List.mem_cons_self)
    | one _ hname _ ih =>
      rw [(Glob.fills_iff_eq (hpattern _ List.mem_cons_self)).mp hname,
        ih fun s hs => hpattern s (List.mem_cons_of_mem _ hs)]
  · rintro rfl
    induction names with
    | nil => exact .nil
    | cons name names ih =>
      have hname : '*' ∉ name := hpattern name List.mem_cons_self
      refine .one ?_ ((Glob.fills_iff_eq hname).mpr rfl)
        (ih fun s hs => hpattern s (List.mem_cons_of_mem name hs))
      rintro rfl
      exact hname List.mem_cons_self

theorem isLiteral_iff {p : NamePattern} : p.isLiteral = true ↔ '*' ∉ p.source.toList := by
  unfold isLiteral
  rw [Bool.not_eq_true', ← Bool.not_eq_true, List.contains_iff_mem]

/-- A pattern that was read matches exactly the names whose segments are obtained from its
own. -/
theorem matches_iff_obtains {text : String} {p : NamePattern} (hp : parse text = .ok p)
    (name : String) :
    p.matches_ name = true ↔ ∃ pattern names, Text.Dotted text.toList pattern ∧
      Text.Dotted name.toList names ∧ Obtains pattern names := by
  have hsource : p.source = text := by
    unfold parse at hp
    split at hp
    · cases hp
    · cases hp; rfl
  have hsegments : (∃ pattern names, Text.Dotted text.toList pattern ∧
      Text.Dotted name.toList names ∧ Obtains pattern names) ↔
      Obtains (Text.splitChars '.' text.toList) (Text.splitChars '.' name.toList) := by
    simp only [Text.dotted_iff, exists_and_left, exists_eq_left']
  rw [hsegments]
  unfold matches_
  split
  · next hliteral =>
    -- a name is what its segments make, so names can be compared as they are written
    rw [obtains_iff_eq fun segment h hmem =>
      isLiteral_iff.mp hliteral (hsource ▸ (Text.mem_of_mem_splitChars h hmem).1),
      ← Text.dotted_iff, beq_iff_eq, hsource]
    constructor
    · rintro rfl
      exact Text.dotted_iff.mpr rfl
    · intro h
      exact String.toList_inj.mp ((Text.dotted_iff.mpr rfl).joined.symm.trans h.joined)
  · unfold segments
    rw [hsource]
    exact matchSegments_iff _ fun segment h hdot => (Text.mem_of_mem_splitChars h hdot).2 rfl

/-- The piece `b` is found at its first place although it is needed at another one, and the
stars between `a` and `c` stand for nothing, for something, and for segments. -/
theorem matches_iff_obtains_apply :
    ∃ pattern names, Text.Dotted "*ab*b.**.a**c".toList pattern ∧
      Text.Dotted "xabbab..Core.abac".toList names ∧ Obtains pattern names :=
  (matches_iff_obtains (p := ⟨"*ab*b.**.a**c"⟩) (by decide) "xabbab..Core.abac").mp (by decide)

end NamePattern

end CilProbe
