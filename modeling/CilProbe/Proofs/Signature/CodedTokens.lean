/-
CilProbe/Proofs/Signature/CodedTokens.lean

What becomes of a coded value when it is read as a token.  A value has two bits for the table and
up to 27 bits for the row (`Compressed.Denotes`), of which a token holds 24.  The others are cut
off without an error: the token that is read is the one of the value's remainder
(`denotes_of_readToken`), so two values are read as the same token exactly if their remainders are
the same, and a value can be told from the token exactly if its row fits.

Main result: `coded_values_cut`.
-/
import CilProbe.Proofs.Signature.Rereading

namespace CilProbe

open Reader

namespace Compressed

/-- Coded values from this one on have a row that is too large for a token. -/
def codedRange : Nat := 0x4000000

/-- A coded value denotes a token: its two low bits stand for the table and the others are the
row. -/
structure Denotes (value : Nat) (t : Token) : Prop where
  table : value % 4 = 0 ∧ t.table = Token.typeDefTable ∨
    value % 4 = 1 ∧ t.table = Token.typeRefTable ∨
    value % 4 = 2 ∧ t.table = Token.typeSpecTable
  row : t.row = value / 4

variable {value value' : Nat} {t t' : Token} {c c' : Cursor}

/-! ### Values and tokens -/

theorem Denotes.table? (h : Denotes value t) : table? (value % 4) = some t.table := by
  rcases h.table with ⟨htag, htable⟩ | ⟨htag, htable⟩ | ⟨htag, htable⟩
  · rw [htag, htable]
    rfl
  · rw [htag, htable]
    rfl
  · rw [htag, htable]
    rfl

theorem denotes_of_table? (htable : Compressed.table? (value % 4) = some t.table)
    (hrow : t.row = value / 4) : Denotes value t := by
  refine ⟨?_, hrow⟩
  rcases htag : value % 4 with - | - | - | tag
  · rw [htag] at htable
    exact .inl ⟨rfl, (Option.some.inj htable).symm⟩
  · rw [htag] at htable
    exact .inr (.inl ⟨rfl, (Option.some.inj htable).symm⟩)
  · rw [htag] at htable
    exact .inr (.inr ⟨rfl, (Option.some.inj htable).symm⟩)
  · rw [htag] at htable
    cases htable

/-- A token has one coded value. -/
theorem Denotes.value_eq (h : Denotes value t) (h' : Denotes value' t) : value = value' := by
  have htag := table?_eq_some_iff.mp h.table?
  have htag' := table?_eq_some_iff.mp h'.table?
  have hmod : value % 4 = value' % 4 := Option.some.inj (htag.symm.trans htag')
  have hdiv : value / 4 = value' / 4 := h.row.symm.trans h'.row
  omega

/-- A coded value denotes one token. -/
theorem Denotes.token_eq (h : Denotes value t) (h' : Denotes value t') : t = t' := by
  have htable : t.table = t'.table := Option.some.inj (h.table?.symm.trans h'.table?)
  rw [← ofParts_table_row t, ← ofParts_table_row t', htable, h.row, h'.row]

/-- Only values whose row fits denote a token. -/
theorem Denotes.lt (h : Denotes value t) : value < codedRange := by
  have hrow := row_lt t
  rw [h.row] at hrow
  unfold codedRange
  omega

/-- A token is written as the value that denotes it. -/
theorem Denotes.encodeToken (h : Denotes value t) : encodeToken t = encode value := by
  rw [encodeToken_eq (table?_eq_some_iff.mp h.table?), h.row, Nat.div_add_mod']

/-- Numbers that have a compressed form have different ones. -/
theorem encode_inj {n n' : Nat} (hn : n ≤ limit) (hn' : n' ≤ limit) (h : encode n = encode n') :
    n = n' := by
  obtain ⟨bytes, hbytes, hreads⟩ := reads_number hn
  obtain ⟨bytes', hbytes', hreads'⟩ := reads_number hn'
  have hsame : bytes = bytes' := by
    have hwritten : Written.number n = Written.number n' := congrArg Written.ofExcept h
    exact congrArg Written.bytes (hbytes.symm.trans (hwritten.trans hbytes'))
  subst hsame
  have hrun := (hreads 0 []).symm.trans (hreads' 0 [])
  exact Except.ok.inj (congrArg Prod.fst hrun)

/-! ### Reading -/

theorem mod_codedRange_mod (value : Nat) : value % codedRange % 4 = value % 4 :=
  Nat.mod_mod_of_dvd value (by decide)

/-- Of the row of a value, as much is made into a token as fits. -/
theorem denotes_ofParts {table : UInt8} (h : Compressed.table? (value % 4) = some table) :
    Denotes (value % codedRange) (Token.ofParts table (value / 4)) := by
  have hdiv : value % codedRange / 4 = value / 4 % 0x1000000 := by
    unfold codedRange
    omega
  have hcut : Token.ofParts table (value / 4) = Token.ofParts table (value / 4 % 0x1000000) := by
    unfold Token.ofParts
    rw [Nat.mod_mod]
  refine denotes_of_table? ?_ ?_
  · rw [mod_codedRange_mod, h, table_ofParts]
  · rw [hdiv, hcut, row_ofParts table (Nat.mod_lt _ (by decide))]

/-- A coded token is a value whose two low bits stand for a table. -/
theorem start_readToken_eq_ok :
    readToken.start c = (.ok t, c') ↔ ∃ value table, read.start c = (.ok value, c') ∧
      table? (value % 4) = some table ∧ t = Token.ofParts table (value / 4) := by
  unfold readToken
  rw [start_bind_eq_ok]
  constructor
  · rintro ⟨value, c₁, hvalue, h⟩
    cases htable : table? (value % 4) with
    | none =>
      rw [htable] at h
      cases h
    | some table =>
      rw [htable] at h
      obtain ⟨rfl, rfl⟩ := start_pure_eq_ok.mp h
      exact ⟨value, table, hvalue, htable, rfl⟩
  · rintro ⟨value, table, hvalue, htable, rfl⟩
    refine ⟨value, c', hvalue, ?_⟩
    rw [htable]
    rfl

/-- The token of a value is that of its remainder. -/
theorem denotes_of_readToken (hvalue : read.start c = (.ok value, c'))
    (ht : readToken.start c = (.ok t, c')) : Denotes (value % codedRange) t := by
  obtain ⟨value', table, hvalue', htable, rfl⟩ := start_readToken_eq_ok.mp ht
  obtain rfl : value = value' := Except.ok.inj (congrArg Prod.fst (hvalue.symm.trans hvalue'))
  exact denotes_ofParts htable

/-- Only one of the four tags stands for no table. -/
theorem exists_table?_iff {tag : Nat} (h : tag < 4) :
    (∃ table, table? tag = some table) ↔ tag ≠ 3 := by
  rcases tag with - | - | - | - | tag
  · exact iff_of_true ⟨_, rfl⟩ (by decide)
  · exact iff_of_true ⟨_, rfl⟩ (by decide)
  · exact iff_of_true ⟨_, rfl⟩ (by decide)
  · exact iff_of_false nofun (by decide)
  · omega

/-- Nothing but the tag decides whether a value is taken for a token. -/
theorem exists_readToken_iff (hvalue : read.start c = (.ok value, c')) :
    (∃ t, readToken.start c = (.ok t, c')) ↔ value % 4 ≠ 3 := by
  rw [← exists_table?_iff (Nat.mod_lt value (by decide))]
  constructor
  · rintro ⟨t, ht⟩
    have hdenotes := denotes_of_readToken hvalue ht
    exact ⟨t.table, mod_codedRange_mod value ▸ hdenotes.table?⟩
  · rintro ⟨table, htable⟩
    exact ⟨_, start_readToken_eq_ok.mpr ⟨value, table, hvalue, htable, rfl⟩⟩

/-- A token that is read denotes the remainder of the value it was read from, and is written as
that remainder.  It denotes the value itself, and is written as that, exactly if the row of the
value fits.  No value is refused for its row, and two values are read as the same token exactly
if they have the same remainder. -/
theorem coded_values_cut (c c' : Cursor) :
    (∀ t, readToken.start c = (.ok t, c') →
      ∃ value, read.start c = (.ok value, c') ∧
        Denotes (value % codedRange) t ∧ encodeToken t = encode (value % codedRange) ∧
        (Denotes value t ↔ value < codedRange) ∧
        (encodeToken t = encode value ↔ value < codedRange)) ∧
    ∀ value, read.start c = (.ok value, c') →
      ((∃ t, readToken.start c = (.ok t, c')) ↔ value % 4 ≠ 3) ∧
      ∀ {d d' : Cursor} {other : Nat} {t t' : Token}, readToken.start c = (.ok t, c') →
        read.start d = (.ok other, d') → readToken.start d = (.ok t', d') →
        (t = t' ↔ value % codedRange = other % codedRange) := by
  refine ⟨fun t ht => ?_, fun value hvalue => ⟨exists_readToken_iff hvalue, ?_⟩⟩
  · obtain ⟨value, -, hvalue, -, -⟩ := start_readToken_eq_ok.mp ht
    have hdenotes := denotes_of_readToken hvalue ht
    have hle : value ≤ limit := answers_read hvalue
    have hle' : value % codedRange ≤ limit := Nat.le_trans (Nat.mod_le _ _) hle
    refine ⟨value, hvalue, hdenotes, hdenotes.encodeToken, ⟨Denotes.lt, fun hlt => ?_⟩,
      ⟨fun hencode => ?_, fun hlt => ?_⟩⟩
    · rwa [Nat.mod_eq_of_lt hlt] at hdenotes
    · rw [← encode_inj hle' hle (hdenotes.encodeToken.symm.trans hencode)]
      exact Nat.mod_lt value (by decide)
    · rw [hdenotes.encodeToken, Nat.mod_eq_of_lt hlt]
  · intro d d' other t t' ht hother ht'
    have h := denotes_of_readToken hvalue ht
    have h' := denotes_of_readToken hother ht'
    constructor
    · rintro rfl
      exact h.value_eq h'
    · intro heq
      exact h.token_eq (heq ▸ h')

/-- A value with the largest row that fits; one that has three bits more is read as the same
token. -/
theorem coded_values_cut_largestRow :
    readToken.start ⟨0, [0xC3, 0xFF, 0xFF, 0xFD]⟩ = (.ok ⟨0x01FFFFFF⟩, ⟨4, []⟩) ∧
      read.start ⟨0, [0xC3, 0xFF, 0xFF, 0xFD]⟩ = (.ok 0x3FFFFFD, ⟨4, []⟩) ∧
      Denotes 0x3FFFFFD ⟨0x01FFFFFF⟩ ∧ encodeToken ⟨0x01FFFFFF⟩ = encode 0x3FFFFFD ∧
      (∃ t, readToken.start ⟨0, [0xDF, 0xFF, 0xFF, 0xFD]⟩ = (.ok t, ⟨4, []⟩)) ∧
      ∀ t, readToken.start ⟨0, [0xDF, 0xFF, 0xFF, 0xFD]⟩ = (.ok t, ⟨4, []⟩) →
        t = ⟨0x01FFFFFF⟩ := by
  have ht : readToken.start ⟨0, [0xC3, 0xFF, 0xFF, 0xFD]⟩ = (.ok ⟨0x01FFFFFF⟩, ⟨4, []⟩) := rfl
  have hvalue : read.start ⟨0, [0xC3, 0xFF, 0xFF, 0xFD]⟩ = (.ok 0x3FFFFFD, ⟨4, []⟩) := rfl
  have hlarge : read.start ⟨0, [0xDF, 0xFF, 0xFF, 0xFD]⟩ = (.ok 0x1FFFFFFD, ⟨4, []⟩) := rfl
  obtain ⟨hread, hcut⟩ := coded_values_cut ⟨0, [0xC3, 0xFF, 0xFF, 0xFD]⟩ ⟨4, []⟩
  obtain ⟨value, hvalue', -, -, hdenotes, hencode⟩ := hread _ ht
  obtain rfl : 0x3FFFFFD = value := Except.ok.inj (congrArg Prod.fst (hvalue.symm.trans hvalue'))
  refine ⟨ht, hvalue, hdenotes.mpr (by decide), hencode.mpr (by decide), ?_, fun t ht' => ?_⟩
  · exact ((coded_values_cut _ _).2 _ hlarge).1.mpr (by decide)
  · exact (((hcut _ hvalue).2 ht hlarge ht').mpr (by decide)).symm

/-- A row that needs a bit more than a token has is read as a small one, which is what is written
for it, also as a part of a type. -/
theorem large_row_cut :
    read.start ⟨0, [0xC4, 0x00, 0x00, 0x04]⟩ = (.ok 0x4000004, ⟨4, []⟩) ∧
      readToken.start ⟨0, [0xC4, 0x00, 0x00, 0x04]⟩ = (.ok ⟨0x02000001⟩, ⟨4, []⟩) ∧
      Token.row ⟨0x02000001⟩ ≠ 0x4000004 / 4 ∧
      encode 0x4000004 = .ok [0xC4, 0x00, 0x00, 0x04] ∧
      encodeToken ⟨0x02000001⟩ = .ok [0x04] ∧
      read.start ⟨0, [0x04]⟩ = (.ok 4, ⟨1, []⟩) ∧
      readToken.start ⟨0, [0x04]⟩ = (.ok ⟨0x02000001⟩, ⟨1, []⟩) ∧
      TypeSig.read.start ⟨0, [0x12, 0xC4, 0x00, 0x00, 0x04]⟩ =
        (.ok (.classType ⟨0x02000001⟩), ⟨5, []⟩) ∧
      TypeSig.read.start ⟨0, [0x12, 0x04]⟩ = (.ok (.classType ⟨0x02000001⟩), ⟨2, []⟩) :=
  ⟨rfl, rfl, by decide, rfl, rfl, rfl, rfl, rfl, rfl⟩

end Compressed

end CilProbe
