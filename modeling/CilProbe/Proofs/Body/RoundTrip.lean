/-
CilProbe/Proofs/Body/RoundTrip.lean

A body that was written is read back as it was meant.  The steps are those of
the format: a field of a row of numbers is the number written there
(`field_skip`, `field_encode`), a clause is read back in either format
(`smallClause_smallBytes`, `fatClause_fatBytes`), hence a table and a section
(`readChain_write`), and last a whole body (`read_write`).

Which bodies can be written is a matter of length alone (`write_eq_error_iff`): the
length of the code is written in 32 bits, and that of a table in 24.
-/
import CilProbe.Body.MethodBody
import CilProbe.Proofs.Outcome

namespace CilProbe

namespace Section

/-! ### Fields -/

/-- A field behind a number is one of the bytes after it. -/
theorem field_skip {width n offset size : Nat} (rest : List UInt8) (h : width ≤ offset) :
    field (LittleEndian.encode width n ++ rest) offset size = field rest (offset - width) size := by
  have hdrop : (LittleEndian.encode width n ++ rest).drop offset = rest.drop (offset - width) := by
    rw [List.drop_append, List.drop_eq_nil_of_le (by simpa using h), List.nil_append,
      LittleEndian.length_encode]
  rw [field, hdrop, field]

/-- A number is the field at its place. -/
theorem field_encode (width n : Nat) (rest : List UInt8) :
    field (LittleEndian.encode width n ++ rest) 0 width = n % Nat.pow 256 width := by
  have htake : (LittleEndian.encode width n ++ rest).take width = LittleEndian.encode width n := by
    rw [List.take_append_of_le_length (by simp), List.take_of_length_le (by simp)]
  rw [field, List.drop_zero, htake, LittleEndian.value_encode]

/-! ### Clauses -/

theorem length_smallBytes (c : Clause) : (smallBytes c).length = smallClauseSize := by
  simp [smallBytes, smallClauseSize]

theorem length_fatBytes (c : Clause) : (fatBytes c).length = fatClauseSize := by
  simp [fatBytes, fatClauseSize]

theorem smallClause_smallBytes {c : Clause} (h : c.fitsSmall) (rest : List UInt8) :
    smallClause (smallBytes c ++ rest) = c := by
  obtain ⟨flags, tryOffset, tryLength, handlerOffset, handlerLength, classOrFilter⟩ := c
  have hflags := flags.toNat_lt
  have hclass := classOrFilter.toNat_lt
  simp only [Clause.fitsSmall, Bool.and_eq_true, decide_eq_true_eq] at h
  simp only [smallClause, smallBytes, List.append_assoc, field_encode, field_skip, Nat.reduceLeDiff,
    Nat.reduceSub, Nat.pow_eq, Nat.reducePow, Clause.mk.injEq]
  refine ⟨?_, ?_, ?_, ?_, ?_, ?_⟩
  · rw [Nat.mod_eq_of_lt (by omega), ClauseFlags.ofNat_toNat]
  · rw [Nat.mod_eq_of_lt (by omega), UInt32.ofNat_toNat]
  · rw [Nat.mod_eq_of_lt (by omega), UInt32.ofNat_toNat]
  · rw [Nat.mod_eq_of_lt (by omega), UInt32.ofNat_toNat]
  · rw [Nat.mod_eq_of_lt (by omega), UInt32.ofNat_toNat]
  · rw [Nat.mod_eq_of_lt hclass, UInt32.ofNat_toNat]

theorem fatClause_fatBytes (c : Clause) (rest : List UInt8) :
    fatClause (fatBytes c ++ rest) = c := by
  obtain ⟨flags, tryOffset, tryLength, handlerOffset, handlerLength, classOrFilter⟩ := c
  have hflags := flags.toNat_lt
  simp only [fatClause, fatBytes, List.append_assoc, field_encode, field_skip, Nat.reduceLeDiff,
    Nat.reduceSub, Nat.pow_eq, Nat.reducePow, Clause.mk.injEq]
  refine ⟨?_, ?_, ?_, ?_, ?_, ?_⟩
  · rw [Nat.mod_eq_of_lt (by omega), ClauseFlags.ofNat_toNat]
  · rw [Nat.mod_eq_of_lt tryOffset.toNat_lt, UInt32.ofNat_toNat]
  · rw [Nat.mod_eq_of_lt tryLength.toNat_lt, UInt32.ofNat_toNat]
  · rw [Nat.mod_eq_of_lt handlerOffset.toNat_lt, UInt32.ofNat_toNat]
  · rw [Nat.mod_eq_of_lt handlerLength.toNat_lt, UInt32.ofNat_toNat]
  · rw [Nat.mod_eq_of_lt classOrFilter.toNat_lt, UInt32.ofNat_toNat]

/-- A table of clauses is read back if each clause is. -/
theorem clauses_flatMap {size : Nat} {read : List UInt8 → Clause} {bytesOf : Clause → List UInt8}
    (table : List Clause) (hsize : ∀ c, (bytesOf c).length = size)
    (hread : ∀ c ∈ table, ∀ rest, read (bytesOf c ++ rest) = c) :
    clauses size read table.length (table.flatMap bytesOf) = table := by
  induction table with
  | nil => rfl
  | cons c table ih =>
    have hdrop : (bytesOf c ++ table.flatMap bytesOf).drop size = table.flatMap bytesOf :=
      List.drop_left' (hsize c)
    rw [List.length_cons, List.flatMap_cons, clauses, hdrop, hread c (by simp),
      ih fun d hd => hread d (by simp [hd])]

/-! ### Sections -/

theorem length_flatMap_clause {size : Nat} {bytesOf : Clause → List UInt8}
    (hsize : ∀ c, (bytesOf c).length = size) (table : List Clause) :
    (table.flatMap bytesOf).length = table.length * size := by
  rw [List.length_flatMap, List.map_congr_left fun c _ => hsize c, List.map_const',
    List.sum_replicate_nat]

/-- What a reader sees in a section: how long it is, that none follows, and the
clauses. -/
def Holds (bytes : List UInt8) (table : List Clause) : Prop :=
  declaredSize bytes = bytes.length ∧ headerSize ≤ bytes.length ∧
    hasMark bytes moreSections = false ∧ clausesIn bytes = table

theorem holds_small {table : List Clause} {size : Nat}
    (hsize : size = headerSize + table.length * smallClauseSize) (hroom : size ≤ 0xFF)
    (hfits : table.all Clause.fitsSmall) :
    Holds (LittleEndian.encode 1 clauseTable ++ LittleEndian.encode 1 size ++
      LittleEndian.encode 2 0 ++ table.flatMap smallBytes) table := by
  have hlen := length_flatMap_clause length_smallBytes table
  have hread := clauses_flatMap table length_smallBytes fun c hc rest =>
    smallClause_smallBytes (List.all_eq_true.mp hfits c hc) rest
  have hcount : (size - headerSize) / smallClauseSize = table.length := by
    rw [hsize, Nat.add_sub_cancel_left, Nat.mul_div_cancel _ (by decide)]
  have hmod : size % 256 = size := Nat.mod_eq_of_lt (by omega)
  have hdrop : (LittleEndian.encode 1 clauseTable ++ (LittleEndian.encode 1 size ++
      (LittleEndian.encode 2 0 ++ table.flatMap smallBytes))).drop headerSize =
      table.flatMap smallBytes := rfl
  simp only [Holds, declaredSize, clausesIn, hasMark, List.append_assoc, field_encode, field_skip,
    Nat.le_refl, Nat.sub_self, Nat.pow_eq, Nat.reducePow, hmod, hdrop]
  refine ⟨?_, ?_, rfl, ?_⟩
  · simp [hlen, hsize, headerSize, fatFormat, clauseTable]
    omega
  · simp [headerSize]
    omega
  · simp [clauseTable, fatFormat, hcount, hread]

theorem holds_fat {table : List Clause} {size : Nat}
    (hsize : size = headerSize + table.length * fatClauseSize) (hroom : size ≤ 0xFFFFFF) :
    Holds (LittleEndian.encode 1 (clauseTable + fatFormat) ++ LittleEndian.encode 3 size ++
      table.flatMap fatBytes) table := by
  have hlen := length_flatMap_clause length_fatBytes table
  have hread := clauses_flatMap table length_fatBytes fun c _ rest =>
    fatClause_fatBytes c rest
  have hcount : (size - headerSize) / fatClauseSize = table.length := by
    rw [hsize, Nat.add_sub_cancel_left, Nat.mul_div_cancel _ (by decide)]
  have hmod : size % 16777216 = size := Nat.mod_eq_of_lt (by omega)
  have hdrop : (LittleEndian.encode 1 (clauseTable + fatFormat) ++ (LittleEndian.encode 3 size ++
      table.flatMap fatBytes)).drop headerSize = table.flatMap fatBytes := rfl
  simp only [Holds, declaredSize, clausesIn, hasMark, List.append_assoc, field_encode, field_skip,
    Nat.le_refl, Nat.sub_self, Nat.pow_eq, Nat.reducePow, hmod, hdrop]
  refine ⟨?_, ?_, rfl, ?_⟩
  · simp [hlen, hsize, headerSize, fatFormat, clauseTable]
    omega
  · simp [headerSize]
    omega
  · simp [clauseTable, fatFormat, hcount, hread]

/-- A section that was written holds its clauses. -/
theorem holds_write {table : List Clause} {bytes : List UInt8} (h : write table = .ok bytes) :
    Holds bytes table := by
  unfold write at h
  simp only at h
  split at h
  · next hsmall =>
    cases h
    exact holds_small rfl hsmall.1 hsmall.2
  · split at h
    · cases h
    · next hroom =>
      cases h
      exact holds_fat rfl (Nat.le_of_not_lt hroom)

theorem readChain_write {table : List Clause} {bytes : List UInt8} (h : write table = .ok bytes)
    (fuel cursor : Nat) : readChain (fuel + 1) cursor bytes = .ok table := by
  obtain ⟨hsize, hroom, hlast, hclauses⟩ := holds_write h
  have hheader : ¬(bytes.take headerSize).length < headerSize := by
    rw [List.length_take]
    omega
  have hwhole : ¬(declaredSize bytes < headerSize ∨
      (bytes.take (declaredSize bytes)).length < declaredSize bytes) := by
    rw [hsize, List.take_length]
    omega
  unfold readChain
  simp only
  rw [if_neg hheader, if_neg hwhole, hlast, hclauses]
  rfl

/-- A table is refused exactly if it is too long for the fat format, which is the
longer one. -/
theorem write_eq_error_iff {table : List Clause} {e : Error} :
    write table = .error e ↔
      0xFFFFFF < headerSize + table.length * fatClauseSize ∧
        e = .malformed (.tooManyClauses table.length) := by
  unfold write headerSize smallClauseSize fatClauseSize
  simp only
  split
  · next hsmall =>
    have hroom := hsmall.1
    constructor
    · intro h
      cases h
    · rintro ⟨hlong, -⟩
      omega
  · split
    · next hlong =>
      constructor
      · intro h
        cases h
        exact ⟨hlong, rfl⟩
      · rintro ⟨-, rfl⟩
        rfl
    · next hfits =>
      constructor
      · intro h
        cases h
      · rintro ⟨hlong, -⟩
        exact absurd hlong hfits

end Section

/-! ### Bodies -/

namespace BodySpec

/-- What a reader sees of a body. -/
def seen (s : BodySpec) : MethodBody :=
  if s.isTiny then
    { codeSize := s.code.length, headerSize := 1, localsToken := ⟨0⟩
      maxStack := MethodBody.tinyMaxStack, isFat := false, initLocals := false, clauses := [] }
  else
    { codeSize := s.code.length, headerSize := MethodBody.fatHeaderSize
      localsToken := s.localsToken, maxStack := s.maxStack, isFat := true
      initLocals := s.initLocals, clauses := s.clauses }

/-- The bytes behind the code: the table at the next multiple of four. -/
def Back (s : BodySpec) (back : List UInt8) : Prop :=
  if s.clauses.isEmpty then back = []
  else ∃ table, Section.write s.clauses = .ok table ∧
    back = padding (s.fatHeader ++ s.code).length ++ table

theorem length_fatHeader (s : BodySpec) : s.fatHeader.length = MethodBody.fatHeaderSize := by
  simp [fatHeader, LittleEndian.ofUInt16, LittleEndian.ofUInt32, MethodBody.fatHeaderSize]

/-- A body that needs a fat header is the header, the code, and the table. -/
theorem write_fat {s : BodySpec} {data : List UInt8} (h : s.write = .ok data)
    (hfat : s.isTiny = false) :
    s.code.length ≤ Offset.last ∧ ∃ back, s.Back back ∧ data = s.fatHeader ++ (s.code ++ back) := by
  unfold write at h
  rw [hfat] at h
  simp only [Bool.false_eq_true, if_false] at h
  split at h
  · cases h
  · next hlen =>
    refine ⟨Nat.le_of_not_lt hlen, ?_⟩
    unfold Back
    split at h
    · next hempty =>
      cases h
      exact ⟨[], by rw [if_pos hempty], by simp⟩
    · next hempty =>
      rcases htable : Section.write s.clauses with e | table
      · rw [htable] at h
        cases h
      · rw [htable] at h
        cases h
        exact ⟨_, by rw [if_neg hempty]; exact ⟨table, rfl, rfl⟩, by simp⟩

theorem marks_lt (s : BodySpec) : s.marks < 0x10000 := by
  unfold marks
  split <;> split <;> decide

theorem marks_headerSize (s : BodySpec) : s.marks / 0x1000 * 4 = MethodBody.fatHeaderSize := by
  unfold marks
  split <;> split <;> rfl

theorem marks_moreSections (s : BodySpec) :
    (s.marks / MethodBody.moreSections % 2 == 1) = !s.clauses.isEmpty := by
  unfold marks
  cases s.initLocals <;> cases s.clauses.isEmpty <;> rfl

theorem marks_zeroLocals (s : BodySpec) :
    (s.marks / MethodBody.zeroLocals % 2 == 1) = s.initLocals := by
  unfold marks
  cases s.initLocals <;> cases s.clauses.isEmpty <;> rfl

theorem marks_format (s : BodySpec) : s.marks % 256 % 4 = MethodBody.fatFormat := by
  unfold marks
  cases s.initLocals <;> cases s.clauses.isEmpty <;> rfl

/-- The table is found behind the code. -/
theorem readAll_back {s : BodySpec} {back : List UInt8} (h : s.Back back)
    (hne : s.clauses.isEmpty = false) :
    Section.readAll (s.fatHeader ++ (s.code ++ back))
      (Section.align (MethodBody.fatHeaderSize + s.code.length)) = .ok s.clauses := by
  unfold Back at h
  rw [hne] at h
  obtain ⟨table, htable, rfl⟩ := h
  have hfront : (s.fatHeader ++ s.code).length = MethodBody.fatHeaderSize + s.code.length := by
    rw [List.length_append, length_fatHeader]
  have hle : (s.fatHeader ++ s.code).length ≤ Section.align (s.fatHeader ++ s.code).length := by
    unfold Section.align
    omega
  -- the padding fills up to where the reader looks for the table
  have hdrop : (s.fatHeader ++ (s.code ++ (padding (s.fatHeader ++ s.code).length ++ table))).drop
      (Section.align (MethodBody.fatHeaderSize + s.code.length)) = table := by
    rw [← List.append_assoc, ← List.append_assoc, ← hfront]
    refine List.drop_left' ?_
    rw [List.length_append, padding, List.length_replicate]
    omega
  rw [Section.readAll, hdrop]
  exact Section.readChain_write htable _ _

/-- What the fields of a fat header say. -/
theorem fields_fatHeader {s : BodySpec} (hlen : s.code.length ≤ Offset.last) (rest : List UInt8) :
    Section.field (s.fatHeader ++ rest) 0 2 = s.marks ∧
      Section.field (s.fatHeader ++ rest) 2 2 = s.maxStack.toNat ∧
      Section.field (s.fatHeader ++ rest) 4 4 = s.code.length ∧
      Section.field (s.fatHeader ++ rest) 8 4 = s.localsToken.value.toNat := by
  have hmarks := Nat.mod_eq_of_lt s.marks_lt
  have hcode : s.code.length % 4294967296 = s.code.length :=
    Nat.mod_eq_of_lt (Nat.lt_of_le_of_lt hlen (by decide))
  have hstack := Nat.mod_eq_of_lt (show s.maxStack.toNat < 65536 from s.maxStack.toNat_lt)
  have htoken := Nat.mod_eq_of_lt
    (show s.localsToken.value.toNat < 4294967296 from s.localsToken.value.toNat_lt)
  have hfields : s.fatHeader ++ rest = LittleEndian.encode 2 s.marks ++
      (LittleEndian.encode 2 s.maxStack.toNat ++ (LittleEndian.encode 4 s.code.length ++
        (LittleEndian.encode 4 s.localsToken.value.toNat ++ rest))) := by
    simp [fatHeader, LittleEndian.ofUInt16, LittleEndian.ofUInt32]
  rw [hfields]
  refine ⟨?_, ?_, ?_, ?_⟩
  · rw [Section.field_encode, ← hmarks]
    simp
  · rw [Section.field_skip _ (Nat.le_refl _), Section.field_encode]
    exact hstack
  · rw [Section.field_skip _ (by decide), Section.field_skip _ (by decide), Section.field_encode]
    exact hcode
  · rw [Section.field_skip _ (by decide), Section.field_skip _ (by decide),
      Section.field_skip _ (by decide), Section.field_encode]
    exact htoken

theorem readFat_write {s : BodySpec} {back : List UInt8} (hlen : s.code.length ≤ Offset.last)
    (hback : s.Back back) :
    MethodBody.readFat (s.fatHeader ++ (s.code ++ back)) =
      .ok { codeSize := s.code.length, headerSize := MethodBody.fatHeaderSize,
            localsToken := s.localsToken, maxStack := s.maxStack, isFat := true,
            initLocals := s.initLocals, clauses := s.clauses } := by
  have hdata : (s.fatHeader ++ (s.code ++ back)).length =
      MethodBody.fatHeaderSize + (s.code.length + back.length) := by
    rw [List.length_append, List.length_append, length_fatHeader]
  obtain ⟨h₀, h₂, h₄, h₈⟩ := fields_fatHeader hlen (s.code ++ back)
  unfold MethodBody.readFat
  -- the header is there, of the size it says, and so is the code
  simp only [h₀, h₂, h₄, h₈, marks_headerSize, marks_moreSections, marks_zeroLocals, hdata]
  rw [if_neg (by omega), if_neg (by omega), if_neg (by omega)]
  rcases hempty : s.clauses.isEmpty with _ | _
  · rw [readAll_back hback hempty]
    simp [bind, Except.bind, pure, Except.pure]
  · simp [bind, Except.bind, pure, Except.pure, List.isEmpty_iff.mp hempty]

theorem read_write_of_fat {s : BodySpec} {data : List UInt8} (h : s.write = .ok data)
    (hfat : s.isTiny = false) :
    MethodBody.read data = .ok s.seen ∧ s.seen.code data = .ok s.code := by
  obtain ⟨hlen, back, hback, rfl⟩ := write_fat h hfat
  have hseen : s.seen = _ := if_neg (by rw [hfat]; decide)
  rw [hseen]
  have hfirst : (UInt8.ofNat s.marks).toNat % 4 = MethodBody.fatFormat := by
    rw [UInt8.toNat_ofNat']
    exact s.marks_format
  constructor
  · show (if (UInt8.ofNat s.marks).toNat % 4 = _ then _ else if _ then _ else _) = _
    rw [if_neg (by rw [hfirst]; decide), if_pos hfirst]
    exact readFat_write hlen hback
  · have hdata : (s.fatHeader ++ (s.code ++ back)).length =
        MethodBody.fatHeaderSize + (s.code.length + back.length) := by
      rw [List.length_append, List.length_append, length_fatHeader]
    have hdrop : (s.fatHeader ++ (s.code ++ back)).drop MethodBody.fatHeaderSize =
        s.code ++ back := List.drop_left' s.length_fatHeader
    unfold MethodBody.code MethodBody.size
    simp only [hdrop, List.take_left]
    rw [if_neg (by omega)]

theorem read_write_of_tiny {s : BodySpec} {data : List UInt8} (h : s.write = .ok data)
    (htiny : s.isTiny = true) :
    MethodBody.read data = .ok s.seen ∧ s.seen.code data = .ok s.code := by
  have hwrite : s.write =
      .ok (UInt8.ofNat (s.code.length * 4 + MethodBody.tinyFormat) :: s.code) := if_pos htiny
  obtain rfl := Except.ok.inj (hwrite.symm.trans h)
  have hseen : s.seen = _ := if_pos htiny
  rw [hseen]
  have hlen : s.code.length ≤ MethodBody.tinyMaxCode := by
    simp only [isTiny, Bool.and_eq_true, decide_eq_true_eq] at htiny
    exact htiny.1.1.1.1.2
  -- the first byte is the length and the format, in six bits and two
  have hfirst : (UInt8.ofNat (s.code.length * 4 + MethodBody.tinyFormat)).toNat =
      s.code.length * 4 + 2 := by
    unfold MethodBody.tinyMaxCode at hlen
    rw [UInt8.toNat_ofNat', MethodBody.tinyFormat]
    exact Nat.mod_eq_of_lt (by omega)
  constructor
  · unfold MethodBody.read
    simp only [hfirst]
    rw [if_pos (by unfold MethodBody.tinyFormat; omega)]
    unfold MethodBody.readTiny
    simp only [hfirst, List.length_cons]
    have hdiv : (s.code.length * 4 + 2) / 4 = s.code.length := by omega
    rewrite [hdiv, if_neg (by omega)]
    rfl
  · unfold MethodBody.code MethodBody.size
    simp

/-- A body that was written is read back as it was meant. -/
theorem read_write {s : BodySpec} {data : List UInt8} (h : s.write = .ok data) :
    MethodBody.read data = .ok s.seen ∧ s.seen.code data = .ok s.code := by
  rcases htiny : s.isTiny with - | -
  · exact read_write_of_fat h htiny
  · exact read_write_of_tiny h htiny

/-! ### Which bodies can be written -/

/-- The signature of the locals, where there are any. -/
def locals? (s : BodySpec) : Option Token := s.localSignature.filter fun t => !t.isNull

/-- What a tiny header can say. -/
theorem isTiny_iff (s : BodySpec) :
    s.isTiny = true ↔ s.fat = false ∧ s.code.length ≤ MethodBody.tinyMaxCode ∧
      s.maxStack ≤ MethodBody.tinyMaxStack ∧ s.locals? = none ∧ s.initLocals = false ∧
      s.clauses = [] := by
  have hlocals : s.localsToken.isNull = true ↔ s.locals? = none := by
    unfold localsToken locals?
    rcases s.localSignature with - | t
    · simp [Token.isNull]
    · simp
  simp only [isTiny, Bool.and_eq_true, Bool.not_eq_true', decide_eq_true_eq, List.isEmpty_iff,
    hlocals, and_assoc]

theorem localSignature?_seen (s : BodySpec) : s.seen.localSignature? = s.locals? := by
  unfold seen
  split
  · next htiny => rw [(s.isTiny_iff.mp htiny).2.2.2.1]; rfl
  · show (if s.localsToken.isNull then none else some s.localsToken) = s.locals?
    unfold localsToken locals?
    rcases s.localSignature with - | t
    · rfl
    · rcases hnull : t.isNull with - | -
      · simp [hnull, Option.filter]
      · simp [hnull, Option.filter]

/-- A body is refused exactly if its code or its table is too long; the code is looked
at first. -/
theorem write_eq_error_iff {s : BodySpec} {e : Error} :
    s.write = .error e ↔
      Offset.last < s.code.length ∧ e = .malformed (.codeTooLong s.code.length) ∨
      s.code.length ≤ Offset.last ∧
        0xFFFFFF < Section.headerSize + s.clauses.length * Section.fatClauseSize ∧
        e = .malformed (.tooManyClauses s.clauses.length) := by
  unfold write
  split
  · next htiny =>
    -- a tiny header says nothing of clauses, and its code is short
    obtain ⟨-, hlen, -, -, -, hclauses⟩ := s.isTiny_iff.mp htiny
    constructor
    · intro h
      cases h
    · rintro (⟨hlong, -⟩ | ⟨-, hlong, -⟩)
      · exact absurd hlong (Nat.not_lt.mpr (Nat.le_trans hlen (by decide)))
      · rw [hclauses] at hlong
        exact absurd hlong (by decide)
  · split
    · next hlong =>
      constructor
      · intro h
        cases h
        exact .inl ⟨hlong, rfl⟩
      · rintro (⟨-, rfl⟩ | ⟨hshort, -⟩)
        · rfl
        · exact absurd hlong (Nat.not_lt.mpr hshort)
    · next hshort =>
      simp only
      split
      · next hempty =>
        rw [List.isEmpty_iff.mp hempty]
        constructor
        · intro h
          cases h
        · rintro (⟨hlong, -⟩ | ⟨-, hlong, -⟩)
          · exact absurd hlong hshort
          · exact absurd hlong (by decide)
      · rw [bind_pure_eq_error, Section.write_eq_error_iff]
        constructor
        · intro h
          exact .inr ⟨Nat.le_of_not_lt hshort, h⟩
        · rintro (⟨hlong, -⟩ | ⟨-, h⟩)
          · exact absurd hlong hshort
          · exact h

/-- A body that was written reads back as it was meant; only a tiny header, which says
nothing of the stack, stands for a depth of eight.  A body is refused exactly if its
code or its table is too long for the format. -/
theorem body_round_trip (s : BodySpec) :
    (∀ data, s.write = .ok data →
      ∃ b, MethodBody.read data = .ok b ∧ b.code data = .ok s.code ∧ b.clauses = s.clauses ∧
        b.initLocals = s.initLocals ∧ b.localSignature? = s.locals? ∧
        (b.isFat = false ↔ s.fat = false ∧ s.code.length ≤ 63 ∧ s.maxStack ≤ 8 ∧
          s.locals? = none ∧ s.initLocals = false ∧ s.clauses = []) ∧
        b.maxStack = if b.isFat then s.maxStack else 8) ∧
    ∀ e, s.write = .error e ↔
      0xFFFFFFFF < s.code.length ∧ e = .malformed (.codeTooLong s.code.length) ∨
      s.code.length ≤ 0xFFFFFFFF ∧ 0xFFFFFF < 4 + s.clauses.length * 24 ∧
        e = .malformed (.tooManyClauses s.clauses.length) := by
  refine ⟨fun data h => ?_, fun e => write_eq_error_iff⟩
  obtain ⟨hread, hcode⟩ := read_write h
  rcases htiny : s.isTiny with - | -
  · have hseen : s.seen = _ := if_neg (by rw [htiny]; decide)
    have hfat := (not_congr s.isTiny_iff).mp (by rw [htiny]; decide)
    refine ⟨s.seen, hread, hcode, ?_, ?_, s.localSignature?_seen, ?_, ?_⟩
    · rw [hseen]
    · rw [hseen]
    · rw [hseen]
      exact ⟨fun h => Bool.noConfusion h, fun h => absurd h hfat⟩
    · rw [hseen]
      rfl
  · have hseen : s.seen = _ := if_pos htiny
    have hall := s.isTiny_iff.mp htiny
    obtain ⟨-, -, -, -, hinit, hclauses⟩ := id hall
    refine ⟨s.seen, hread, hcode, ?_, ?_, s.localSignature?_seen, ?_, ?_⟩
    · rw [hseen, hclauses]
    · rw [hseen, hinit]
    · rw [hseen]
      exact ⟨fun _ => hall, fun _ => rfl⟩
    · rw [hseen]
      rfl

/-! ### A body with a clause -/

/-- A body without locals whose clause is too long for the small format. -/
def guarded : BodySpec where
  code := [0x00, 0x2A]
  maxStack := 9
  localSignature := some ⟨0⟩
  clauses := [.catch_ 0 0x100 0x100 1 ⟨0x01000001⟩]

/-- What it is written as. -/
def guardedBytes : List UInt8 :=
  [0x0B, 0x30, 0x09, 0x00, 0x02, 0x00, 0x00, 0x00, 0x00, 0x00, 0x00, 0x00,
   0x00, 0x2A, 0x00, 0x00, 0x41, 0x1C, 0x00, 0x00,
   0x00, 0x00, 0x00, 0x00, 0x00, 0x00, 0x00, 0x00, 0x00, 0x01, 0x00, 0x00,
   0x00, 0x01, 0x00, 0x00, 0x01, 0x00, 0x00, 0x00, 0x01, 0x00, 0x00, 0x01]

theorem body_round_trip_guarded :
    guarded.write = .ok guardedBytes ∧
      ∃ b, MethodBody.read guardedBytes = .ok b ∧ b.code guardedBytes = .ok guarded.code ∧
        b.clauses = guarded.clauses ∧ b.localSignature? = none := by
  have h : guarded.write = .ok guardedBytes := by decide +kernel
  obtain ⟨b, hread, hcode, hclauses, -, hlocals, -⟩ := (body_round_trip guarded).1 _ h
  exact ⟨h, b, hread, hcode, hclauses, hlocals⟩

end BodySpec

end CilProbe
