/-
CilProbe/Proofs/Bytes/Compressed.lean

Compressed numbers and coded tokens, both ways.  A number up to the limit is read back
from what is written for it (`reads_number`), and so is a token of a type table
(`reads_token`).  Reading takes longer forms as well; a number is written anew as it was
read if it stood in its shortest form, which is the one with `width n` bytes
(`spans_number`).  A coded token loses the bits of its row that do not fit, so there the row
has to fit besides.

`Numerals.strict` reads numbers in their shortest form and tokens whose row fits, and
fails on all others; whatever it reads is written anew as it was.
-/
import CilProbe.Proofs.Bytes.Writing
import CilProbe.Signature.Write

namespace CilProbe

namespace Compressed

/-! ### The shortest form -/

/-- The number of bytes in the shortest form of a number. -/
def width (n : Nat) : Nat := if n ≤ 0x7F then 1 else if n ≤ 0x3FFF then 2 else 4

/-- Whether the number at a cursor, if there is one, is in its shortest form. -/
def isShortest (c : Cursor) : Bool :=
  match read.start c with
  | (.ok n, c') => c'.pos == c.pos + width n
  | _ => true

/-- Whether the row of the coded token at a cursor, if there is one, fits. -/
def rowFits (c : Cursor) : Bool :=
  match read.start c with
  | (.ok value, _) => value / 4 < 0x1000000
  | _ => true

theorem width_cases (n : Nat) :
    (n ≤ 0x7F ∧ width n = 1) ∨ (0x7F < n ∧ n ≤ 0x3FFF ∧ width n = 2) ∨
      (0x3FFF < n ∧ width n = 4) := by
  unfold width
  split
  · next h => exact .inl ⟨h, rfl⟩
  split
  · next h h' => exact .inr (.inl ⟨Nat.not_le.mp h, h', rfl⟩)
  · next h h' => exact .inr (.inr ⟨Nat.not_le.mp h', rfl⟩)

/-! ### Reading by the first byte -/

theorem read_oneByte {lead : UInt8} (h : lead.toNat < 0x80) :
    Reader.Reads read (.ok [lead]) lead.toNat := by
  have hlt : lead < 0x80 := h
  refine (Reader.Reads.byte lead).bind (v := .ok []) ?_
  rw [if_pos hlt]
  exact .pure lead.toNat

theorem read_twoBytes {lead low : UInt8} (h : 0x80 ≤ lead.toNat) (h' : lead.toNat < 0xC0) :
    Reader.Reads read (.ok [lead, low]) ((lead.toNat - 0x80) * 0x100 + low.toNat) := by
  have hle : ¬ lead < 0x80 := Nat.not_lt.mpr h
  have hlt : lead < 0xC0 := h'
  refine (Reader.Reads.byte lead).bind (v := .ok [low]) ?_
  rw [if_neg hle, if_pos hlt]
  exact (Reader.Reads.byte low).bind_pure _

theorem read_fourBytes {lead b₂ b₁ b₀ : UInt8} (h : 0xC0 ≤ lead.toNat) (h' : lead.toNat < 0xE0) :
    Reader.Reads read (.ok [lead, b₂, b₁, b₀])
      ((lead.toNat - 0xC0) * 0x1000000 + b₂.toNat * 0x10000 + b₁.toNat * 0x100 + b₀.toNat) := by
  have hle : ¬ lead < 0x80 := Nat.not_lt.mpr (Nat.le_trans (by decide) h)
  have hle' : ¬ lead < 0xC0 := Nat.not_lt.mpr h
  have hlt : lead < 0xE0 := h'
  refine (Reader.Reads.byte lead).bind (v := .ok [b₂, b₁, b₀]) ?_
  rw [if_neg hle, if_neg hle', if_pos hlt]
  refine (Reader.Reads.byte b₂).bind (v := .ok [b₁, b₀]) ?_
  refine (Reader.Reads.byte b₁).bind (v := .ok [b₀]) ?_
  exact (Reader.Reads.byte b₀).bind_pure _

/-- What a number was read from, by its first byte. -/
theorem start_read_eq_ok {c c' : Cursor} {n : Nat} (h : read.start c = (.ok n, c')) :
    ∃ lead c₁, Reader.byte.start c = (.ok lead, c₁) ∧
      ((lead.toNat < 0x80 ∧ n = lead.toNat ∧ c' = c₁) ∨
      (0x80 ≤ lead.toNat ∧ lead.toNat < 0xC0 ∧ ∃ low, Reader.byte.start c₁ = (.ok low, c') ∧
        n = (lead.toNat - 0x80) * 0x100 + low.toNat) ∨
      (0xC0 ≤ lead.toNat ∧ lead.toNat < 0xE0 ∧ ∃ b₂ c₂ b₁ c₃ b₀,
        Reader.byte.start c₁ = (.ok b₂, c₂) ∧ Reader.byte.start c₂ = (.ok b₁, c₃) ∧
        Reader.byte.start c₃ = (.ok b₀, c') ∧
        n = (lead.toNat - 0xC0) * 0x1000000 + b₂.toNat * 0x10000 + b₁.toNat * 0x100 +
          b₀.toNat)) := by
  obtain ⟨lead, c₁, hlead, h⟩ := Reader.start_bind_eq_ok.mp h
  refine ⟨lead, c₁, hlead, ?_⟩
  by_cases h₁ : lead < 0x80
  · rw [if_pos h₁] at h
    obtain ⟨rfl, rfl⟩ := Reader.start_pure_eq_ok.mp h
    exact .inl ⟨h₁, rfl, rfl⟩
  rw [if_neg h₁] at h
  by_cases h₂ : lead < 0xC0
  · rw [if_pos h₂] at h
    obtain ⟨low, c₂, hlow, h⟩ := Reader.start_bind_eq_ok.mp h
    obtain ⟨rfl, rfl⟩ := Reader.start_pure_eq_ok.mp h
    exact .inr (.inl ⟨Nat.not_lt.mp h₁, h₂, low, hlow, rfl⟩)
  rw [if_neg h₂] at h
  by_cases h₃ : lead < 0xE0
  · rw [if_pos h₃] at h
    obtain ⟨b₂, c₂, hb₂, h⟩ := Reader.start_bind_eq_ok.mp h
    obtain ⟨b₁, c₃, hb₁, h⟩ := Reader.start_bind_eq_ok.mp h
    obtain ⟨b₀, c₄, hb₀, h⟩ := Reader.start_bind_eq_ok.mp h
    obtain ⟨rfl, rfl⟩ := Reader.start_pure_eq_ok.mp h
    exact .inr (.inr ⟨Nat.not_lt.mp h₂, h₃, b₂, c₂, b₁, c₃, b₀, hb₂, hb₁, hb₀, rfl⟩)
  · rw [if_neg h₃] at h
    cases h

/-! ### Numbers -/

theorem toNat_ofNat_of_lt {n : Nat} (h : n < 0x100) : (UInt8.ofNat n).toNat = n :=
  UInt8.toNat_ofNat_of_lt' h

theorem ofNat_eq_of_mod {n : Nat} {b : UInt8} (h : n % 0x100 = b.toNat) : UInt8.ofNat n = b := by
  apply UInt8.toNat_inj.mp
  rw [UInt8.toNat_ofNat']
  exact h

/-- A count that can be written fits the word that it is kept in. -/
theorem count_eq {n : Nat} (h : n ≤ limit) : Written.count n = .number n :=
  congrArg Written.number (Nat.mod_eq_of_lt (Nat.lt_of_le_of_lt h (by decide)))

/-- What is written for a number is read back. -/
theorem reads_number {n : Nat} (h : n ≤ limit) : Reader.Reads read (.number n) n := by
  have hlimit : limit = 0x1FFFFFFF := rfl
  unfold Written.number encode
  -- one case for each number of bytes
  by_cases h₁ : n ≤ 0x7F
  · rw [if_pos h₁]
    have hlead : (UInt8.ofNat n).toNat = n := toNat_ofNat_of_lt (by omega)
    have hread : Reader.Reads read (.ok [UInt8.ofNat n]) _ := read_oneByte (by omega)
    rwa [hlead] at hread
  rw [if_neg h₁]
  by_cases h₂ : n ≤ 0x3FFF
  · rw [if_pos h₂]
    have hlead : (UInt8.ofNat (0x80 + n / 0x100)).toNat = 0x80 + n / 0x100 :=
      toNat_ofNat_of_lt (by omega)
    have hlow : (UInt8.ofNat n).toNat = n % 0x100 := UInt8.toNat_ofNat'
    have hread : Reader.Reads read
        (.ok [UInt8.ofNat (0x80 + n / 0x100), UInt8.ofNat n]) _ :=
      read_twoBytes (by omega) (by omega)
    have hn : (0x80 + n / 0x100 - 0x80) * 0x100 + n % 0x100 = n := by omega
    rwa [hlead, hlow, hn] at hread
  · rw [if_neg h₂, if_pos h]
    have hlead : (UInt8.ofNat (0xC0 + n / 0x1000000)).toNat = 0xC0 + n / 0x1000000 :=
      toNat_ofNat_of_lt (by omega)
    have h₂' : (UInt8.ofNat (n / 0x10000)).toNat = n / 0x10000 % 0x100 := UInt8.toNat_ofNat'
    have h₁' : (UInt8.ofNat (n / 0x100)).toNat = n / 0x100 % 0x100 := UInt8.toNat_ofNat'
    have h₀' : (UInt8.ofNat n).toNat = n % 0x100 := UInt8.toNat_ofNat'
    have hread : Reader.Reads read
        (.ok [UInt8.ofNat (0xC0 + n / 0x1000000), UInt8.ofNat (n / 0x10000),
          UInt8.ofNat (n / 0x100), UInt8.ofNat n]) _ :=
      read_fourBytes (by omega) (by omega)
    have hn : (0xC0 + n / 0x1000000 - 0xC0) * 0x1000000 + n / 0x10000 % 0x100 * 0x10000 +
        n / 0x100 % 0x100 * 0x100 + n % 0x100 = n := by omega
    rwa [hlead, h₂', h₁', h₀', hn] at hread

theorem reads_count {n : Nat} (h : n ≤ limit) : Reader.Reads read (.count n) n := by
  rw [count_eq h]
  exact reads_number h

/-- The position after a byte. -/
theorem pos_byte {c c' : Cursor} {b : UInt8} (h : Reader.byte.start c = (.ok b, c')) :
    c'.pos = c.pos + 1 := (Reader.finds_byte h).2

/-- No number that is read is too large to be written. -/
theorem le_limit_of_read {c c' : Cursor} {n : Nat} (h : read.start c = (.ok n, c')) :
    n ≤ limit := by
  have hlimit : limit = 0x1FFFFFFF := rfl
  obtain ⟨lead, c₁, -, hcases⟩ := start_read_eq_ok h
  rcases hcases with ⟨hlt, hn, -⟩ | ⟨-, hlt, low, -, hn⟩ |
    ⟨-, hlt, b₂, c₂, b₁, c₃, b₀, -, -, -, hn⟩
  · omega
  · have := low.toNat_lt
    omega
  · have := b₂.toNat_lt
    have := b₁.toNat_lt
    have := b₀.toNat_lt
    omega

/-- A number that stood in its shortest form is written anew as it was. -/
theorem spans_number {c c' : Cursor} {n : Nat} (h : read.start c = (.ok n, c'))
    (hshort : c'.pos = c.pos + width n) : Reader.Spans c c' (.number n) := by
  have hlimit : limit = 0x1FFFFFFF := rfl
  obtain ⟨lead, c₁, hlead, hcases⟩ := start_read_eq_ok h
  have hspan := Reader.Spans.byte hlead
  have hpos := pos_byte hlead
  have hwidth := width_cases n
  unfold Written.number encode
  -- it took no more bytes than it needs, so writing it takes the same form
  rcases hcases with ⟨hlt, hn, rfl⟩ | ⟨hle, hlt, low, hlow, hn⟩ |
    ⟨hle, hlt, b₂, c₂, b₁, c₃, b₀, hb₂, hb₁, hb₀, hn⟩
  · rw [if_pos (by omega), hn, UInt8.ofNat_toNat]
    exact hspan
  · have hpos' := pos_byte hlow
    have hlow' := low.toNat_lt
    rw [if_neg (by omega), if_pos (by omega), ofNat_eq_of_mod (b := lead) (by omega),
      ofNat_eq_of_mod (b := low) (by omega)]
    exact hspan.trans (.byte hlow)
  · have hpos₂ := pos_byte hb₂
    have hpos₁ := pos_byte hb₁
    have hpos₀ := pos_byte hb₀
    have hb₂' := b₂.toNat_lt
    have hb₁' := b₁.toNat_lt
    have hb₀' := b₀.toNat_lt
    rw [if_neg (by omega), if_neg (by omega), if_pos (by omega),
      ofNat_eq_of_mod (b := lead) (by omega), ofNat_eq_of_mod (b := b₂) (by omega),
      ofNat_eq_of_mod (b := b₁) (by omega), ofNat_eq_of_mod (b := b₀) (by omega)]
    exact ((hspan.trans (.byte hb₂)).trans (.byte hb₁)).trans (.byte hb₀)

/-! ### Coded tokens -/

/-- A token is made of its table and its row. -/
theorem ofParts_table_row (t : Token) : Token.ofParts t.table t.row = t := by
  have hvalue := t.value.toNat_lt
  have htable : t.table.toNat = t.value.toNat / 0x1000000 := toNat_ofNat_of_lt (by omega)
  unfold Token.ofParts
  rw [htable]
  show Token.mk (UInt32.ofNat (_ + t.value.toNat % 0x1000000 % 0x1000000)) = t
  rw [Nat.mod_mod, Nat.div_add_mod', UInt32.ofNat_toNat]

theorem row_lt (t : Token) : t.row < 0x1000000 := Nat.mod_lt _ (by decide)

theorem table_ofParts (table : UInt8) (row : Nat) : (Token.ofParts table row).table = table := by
  have htable := table.toNat_lt
  apply UInt8.toNat_inj.mp
  unfold Token.ofParts Token.table
  rw [UInt8.toNat_ofNat', UInt32.toNat_ofNat']
  omega

theorem row_ofParts (table : UInt8) {row : Nat} (h : row < 0x1000000) :
    (Token.ofParts table row).row = row := by
  have htable := table.toNat_lt
  unfold Token.ofParts Token.row
  rw [UInt32.toNat_ofNat']
  omega

/-- The two bits and the tables that they stand for. -/
theorem table?_eq_some_iff {tag : Nat} {table : UInt8} :
    table? tag = some table ↔ tag? table = some tag := by
  constructor
  · intro h
    rcases tag with - | - | - | tag
    · obtain rfl := Option.some.inj h
      rfl
    · obtain rfl := Option.some.inj h
      rfl
    · obtain rfl := Option.some.inj h
      rfl
    · cases h
  · intro h
    unfold tag? at h
    split at h
    · next heq =>
      obtain rfl := Option.some.inj h
      exact congrArg some (beq_iff_eq.mp heq).symm
    split at h
    · next heq =>
      obtain rfl := Option.some.inj h
      exact congrArg some (beq_iff_eq.mp heq).symm
    split at h
    · next heq =>
      obtain rfl := Option.some.inj h
      exact congrArg some (beq_iff_eq.mp heq).symm
    · cases h

theorem tag_lt {table : UInt8} {tag : Nat} (h : tag? table = some tag) : tag < 4 := by
  rcases tag with - | - | - | tag
  · decide
  · decide
  · decide
  · cases table?_eq_some_iff.mpr h

theorem encodeToken_eq {t : Token} {tag : Nat} (h : tag? t.table = some tag) :
    encodeToken t = encode (t.row * 4 + tag) := by
  unfold encodeToken
  rw [h]

/-- What is written for a token of a type table is read back. -/
theorem reads_token {t : Token} (h : (tag? t.table).isSome) : Reader.Reads readToken (.token t) t := by
  obtain ⟨tag, htag⟩ := Option.isSome_iff_exists.mp h
  have hlt := tag_lt htag
  have hrow := row_lt t
  have hlimit : limit = 0x1FFFFFFF := rfl
  have hnumber := reads_number (n := t.row * 4 + tag) (by omega)
  unfold Written.token
  rw [encodeToken_eq htag, ← Written.append_nil (.ofExcept _)]
  refine hnumber.bind ?_
  have hmod : (t.row * 4 + tag) % 4 = tag := by omega
  have hdiv : (t.row * 4 + tag) / 4 = t.row := by omega
  rw [hmod, hdiv, table?_eq_some_iff.mpr htag]
  show Reader.Reads (pure (Token.ofParts t.table t.row)) _ _
  rw [ofParts_table_row]
  exact .pure t

theorem encodeToken_ofParts {table : UInt8} {value : Nat} (h : table? (value % 4) = some table)
    (hrow : value / 4 < 0x1000000) :
    encodeToken (Token.ofParts table (value / 4)) = encode value := by
  have htag : tag? (Token.ofParts table (value / 4)).table = some (value % 4) := by
    rw [table_ofParts]
    exact table?_eq_some_iff.mp h
  rw [encodeToken_eq htag, row_ofParts _ hrow, Nat.div_add_mod']

/-- A token that stood in its shortest form, with a row that fits, is written anew as it
was. -/
theorem spans_token {c c' : Cursor} {t : Token} (h : readToken.start c = (.ok t, c'))
    (hshort : isShortest c = true) (hrow : rowFits c = true) :
    Reader.Spans c c' (.token t) := by
  obtain ⟨value, c₁, hvalue, h⟩ := Reader.start_bind_eq_ok.mp h
  have hpos : c₁.pos = c.pos + width value := by simpa [isShortest, hvalue] using hshort
  have hlt : value / 4 < 0x1000000 := by simpa [rowFits, hvalue] using hrow
  rcases htable : table? (value % 4) with - | table
  · rw [htable] at h
    cases h
  · rw [htable] at h
    obtain ⟨rfl, rfl⟩ := Reader.start_pure_eq_ok.mp h
    have hspan := spans_number hvalue hpos
    unfold Written.token
    rw [encodeToken_ofParts htable hlt]
    exact hspan

end Compressed

/-! ### Strict reading -/

/-- Read something only where it may be read. -/
def Reader.guarded {α : Type} (may : Cursor → Bool) (r : Reader α) : Reader α := do
  if may (← get) then r else throw .outOfBounds

theorem Reader.start_guarded_eq_ok {α : Type} {may : Cursor → Bool} {r : Reader α} {c c' : Cursor}
    {a : α} : (guarded may r).start c = (.ok a, c') ↔ may c = true ∧ r.start c = (.ok a, c') := by
  show (if may c = true then r else throw .outOfBounds : Reader α).start c = _ ↔ _
  by_cases h : may c = true
  · simp [h]
  · simp [h]

namespace Numerals

/-- Numbers and tokens, each read only where it may be read. -/
def guarded (number token : Cursor → Bool) : Numerals :=
  ⟨Reader.guarded number Compressed.read, Reader.guarded token Compressed.readToken⟩

/-- Numbers in their shortest form only, and tokens only if besides their row fits. -/
def strict : Numerals :=
  guarded Compressed.isShortest fun c => Compressed.isShortest c && Compressed.rowFits c

theorem refines_number (number token : Cursor → Bool) :
    Reader.Refines (guarded number token).number any.number :=
  fun _ _ _ h => (Reader.start_guarded_eq_ok.mp h).2

theorem refines_token (number token : Cursor → Bool) :
    Reader.Refines (guarded number token).token any.token :=
  fun _ _ _ h => (Reader.start_guarded_eq_ok.mp h).2

theorem rewrites_number : Reader.Rewrites strict.number .number := by
  intro c c' n h
  obtain ⟨hshort, h⟩ := Reader.start_guarded_eq_ok.mp h
  unfold Compressed.isShortest at hshort
  rw [h] at hshort
  exact Compressed.spans_number h (beq_iff_eq.mp hshort)

theorem rewrites_count : Reader.Rewrites strict.number .count := by
  intro c c' n h
  rw [Compressed.count_eq (Compressed.le_limit_of_read (refines_number _ _ h))]
  exact rewrites_number h

theorem rewrites_token : Reader.Rewrites strict.token .token := by
  intro c c' t h
  obtain ⟨hguard, h⟩ := Reader.start_guarded_eq_ok.mp h
  obtain ⟨hshort, hrow⟩ := (Bool.and_eq_true _ _).mp hguard
  exact Compressed.spans_token h hshort hrow

end Numerals

end CilProbe
