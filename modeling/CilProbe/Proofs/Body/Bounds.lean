/-
CilProbe/Proofs/Body/Bounds.lean

Reading a body stays inside its bytes.  `MethodBody.take` reads a body step by step, as the
format has it: every number is taken from a slice of the bytes, and sections are visited as long
as another one is announced.  Slices can go wrong here and so can the visits: where a slice does
not begin and end inside the bytes, or there are more visits than allowed, there is no outcome at
all.

With a visit for each four bytes, and one more, there always is one, and it is that of
`MethodBody.read` (`run_take`): each slice is behind a look at the length, and each section that
is visited begins at least four bytes behind the one before (`visit_advances`).  A clause takes
at least twelve bytes of its section, and sections do not overlap, so a body has no more clauses
than there is room for behind its code (`length_readChain`).
-/
import CilProbe.Body.MethodBody
import CilProbe.Proofs.Outcome

namespace CilProbe

/-! ### Slices -/

/-- A computation that takes slices of bytes.  It ends with an answer or with an error; where a
slice begins or ends outside the bytes, or where it goes on for too long, there is no outcome. -/
abbrev Slicing := ExceptT Error Option

namespace Slicing

/-- No outcome. -/
def stuck {α : Type} : Slicing α := ExceptT.mk none

/-- The bytes from `start` up to `stop`. -/
def slice (bytes : List UInt8) (start stop : Nat) : Slicing (List UInt8) :=
  if start < bytes.length ∧ start ≤ stop ∧ stop ≤ bytes.length then
    return (bytes.take stop).drop start
  else stuck

/-- The bytes from `start` on. -/
def after (bytes : List UInt8) (start : Nat) : Slicing (List UInt8) :=
  slice bytes start bytes.length

/-- The number in the `width` bytes from `offset` on, if there are so many. -/
def numberAt (bytes : List UInt8) (offset width : Nat) : Slicing Nat := do
  if bytes.length < offset + width then throw .outOfBounds
  return LittleEndian.value (← slice bytes offset (offset + width))

/-- The number in the first `width` bytes. -/
def number (bytes : List UInt8) (width : Nat) : Slicing Nat := numberAt bytes 0 width

end Slicing

/-! ### Bodies taken from slices -/

namespace Section

open Slicing

/-- How wide the fields of a clause are. -/
structure ClauseFormat where
  flags : Nat
  position : Nat
  length : Nat
  class_ : Nat

namespace ClauseFormat

/-- The small format. -/
def small : ClauseFormat := ⟨2, 2, 1, 4⟩

/-- The fat format. -/
def fat : ClauseFormat := ⟨4, 4, 4, 4⟩

/-- Bytes of a clause. -/
def size (f : ClauseFormat) : Nat := f.flags + 2 * (f.position + f.length) + f.class_

end ClauseFormat

/-- The clause that starts at `start`. -/
def takeClause (f : ClauseFormat) (data : List UInt8) (start : Nat) : Slicing Clause := do
  let flags ← numberAt data start f.flags
  let tryStart := start + f.flags
  let tryOffset ← numberAt data tryStart f.position
  let tryLength ← numberAt data (tryStart + f.position) f.length
  let handlerStart := tryStart + f.position + f.length
  let handlerOffset ← numberAt data handlerStart f.position
  let handlerLength ← numberAt data (handlerStart + f.position) f.length
  let classOrFilter ← numberAt data (handlerStart + f.position + f.length) f.class_
  return ⟨.ofNat flags, .ofNat tryOffset, .ofNat tryLength, .ofNat handlerOffset,
    .ofNat handlerLength, .ofNat classOrFilter⟩

/-- `count` clauses, the first of which starts at `start`. -/
def takeClauses (f : ClauseFormat) (data : List UInt8) : Nat → Nat → Slicing (List Clause)
  | 0, _ => return []
  | count + 1, start => do
    let c ← takeClause f data start
    let cs ← takeClauses f data count (start + f.size)
    return c :: cs

/-- The size that the section at `cursor` claims. -/
def takeSize (data : List UInt8) (cursor : Nat) (isFat : Bool) : Slicing Nat :=
  if isFat then do
    let word ← number (← after data cursor) 4
    return word / 0x100
  else do number (← after data (cursor + 1)) 1

/-- The clauses of the section at `cursor`, of which marks and size are known. -/
def takeTable (data : List UInt8) (cursor size marks : Nat) : Slicing (List Clause) :=
  if marks / clauseTable % 2 == 1 then
    let f := if marks / fatFormat % 2 == 1 then ClauseFormat.fat else ClauseFormat.small
    takeClauses f data ((size - headerSize) / f.size) (cursor + headerSize)
  else return []

/-- The section at `cursor`: its clauses, and where the next section starts if there is one. -/
def visit (data : List UInt8) (cursor : Nat) : Slicing (List Clause × Option Nat) :=
  if data.length < cursor + headerSize then throw .outOfBounds
  else do
    let marks ← number (← after data cursor) 1
    let size ← takeSize data cursor (marks / fatFormat % 2 == 1)
    if size < headerSize ∨ data.length < cursor + size then
      throw (.malformed (.sectionSize size cursor))
    else do
      let clauses ← takeTable data cursor size marks
      let next := if marks / moreSections % 2 == 1 then some (align (cursor + size)) else none
      return (clauses, next)

/-- The clauses of the section at `cursor` and of all sections behind it, as long as another one
is announced.  No more than `visits` sections are looked at. -/
def walk (data : List UInt8) : Nat → Nat → Slicing (List Clause)
  | 0, _ => stuck
  | visits + 1, cursor => do
    let (clauses, next) ← visit data cursor
    match next with
    | none => return clauses
    | some next => do
      let later ← walk data visits next
      return clauses ++ later

end Section

namespace MethodBody

open Slicing

/-- Take a body with a tiny header. -/
def takeTiny (data : List UInt8) (first : Nat) : Slicing MethodBody :=
  let codeSize := first / 4
  if data.length < codeSize + 1 then throw .outOfBounds
  else
    return {
      codeSize, headerSize := 1, localsToken := ⟨0⟩, maxStack := tinyMaxStack, isFat := false
      initLocals := false, clauses := [] }

/-- Take a body with a fat header. -/
def takeFat (visits : Nat) (data : List UInt8) : Slicing MethodBody :=
  if data.length < fatHeaderSize then throw .outOfBounds
  else do
    let marks ← number data 2
    let headerSize := marks / 0x1000 * 4
    if headerSize < fatHeaderSize then throw (.malformed (.fatHeaderTooSmall headerSize))
    else do
      let codeSize ← number (← after data 4) 4
      if data.length < codeSize + headerSize then throw .outOfBounds
      else do
        let localsToken ← number (← after data 8) 4
        let maxStack ← number (← after data 2) 2
        let clauses ←
          if marks / moreSections % 2 == 1 then
            Section.walk data visits (Section.align (headerSize + codeSize))
          else pure []
        return {
          codeSize, headerSize, clauses
          localsToken := ⟨.ofNat localsToken⟩
          maxStack := .ofNat maxStack
          isFat := true
          initLocals := marks / zeroLocals % 2 == 1 }

/-- Take a body from its bytes, with no more than `visits` sections. -/
def take (visits : Nat) (data : List UInt8) : Slicing MethodBody :=
  if data.isEmpty then throw (.malformed .noBodyBytes)
  else do
    let first ← number data 1
    if first % 4 = tinyFormat then takeTiny data first
    else if first % 4 = fatFormat then takeFat visits data
    else throw (.malformed (.unknownHeader (.ofNat first)))

end MethodBody

/-! ### Slices inside the bytes -/

namespace Slicing

variable {bytes : List UInt8} {start offset width : Nat}

theorem slice_eq {stop : Nat} (h : start < stop) (hstop : stop ≤ bytes.length) :
    slice bytes start stop = pure ((bytes.drop start).take (stop - start)) := by
  unfold slice
  rw [if_pos ⟨Nat.lt_of_lt_of_le h hstop, Nat.le_of_lt h, hstop⟩, List.drop_take]

theorem after_eq (h : start < bytes.length) : after bytes start = pure (bytes.drop start) := by
  rw [after, slice_eq h (Nat.le_refl _), ← List.length_drop, List.take_length]

/-- A number inside the bytes is the field there. -/
theorem numberAt_eq (h : offset + width ≤ bytes.length) (hwidth : 0 < width) :
    numberAt bytes offset width = pure (Section.field bytes offset width) := by
  unfold numberAt Section.field
  rw [if_neg (Nat.not_lt_of_le h), slice_eq (Nat.lt_add_of_pos_right hwidth) h,
    Nat.add_sub_cancel_left]
  rfl

theorem field_drop (bytes : List UInt8) (start offset width : Nat) :
    Section.field (bytes.drop start) offset width =
      Section.field bytes (start + offset) width := by
  rw [Section.field, Section.field, List.drop_drop]

/-- The same behind a slice. -/
theorem number_after_eq (h : start + width ≤ bytes.length) (hwidth : 0 < width) :
    (do number (← after bytes start) width) =
      (pure (Section.field bytes start width) : Slicing Nat) := by
  have hstart : start < bytes.length := Nat.lt_of_lt_of_le (Nat.lt_add_of_pos_right hwidth) h
  have hwide : 0 + width ≤ (bytes.drop start).length := by
    rw [List.length_drop]
    omega
  rw [after_eq hstart, pure_bind, number, numberAt_eq hwide hwidth, field_drop, Nat.add_zero]

end Slicing


namespace Section

open Slicing

variable {data bytes : List UInt8} {start cursor : Nat}

/-- The bytes behind the first one are what is left of a number without its lowest byte. -/
theorem field_div (bytes : List UInt8) (width : Nat) :
    field bytes 0 (width + 1) / 0x100 = field bytes 1 width := by
  cases bytes with
  | nil => simp [field, LittleEndian.value]
  | cons b bytes =>
    have hb := b.toNat_lt
    show (b.toNat + 256 * LittleEndian.value (bytes.take width)) / 256 = _
    rw [Nat.add_mul_div_left _ _ (by decide), Nat.div_eq_of_lt hb, Nat.zero_add]
    rfl

/-- A mark of the section at `cursor`. -/
theorem hasMark_drop (data : List UInt8) (cursor mark : Nat) :
    (field data cursor 1 / mark % 2 == 1) = hasMark (data.drop cursor) mark := by
  rw [hasMark, field_drop, Nat.add_zero]

theorem takeClause_small (h : start + smallClauseSize ≤ data.length) :
    takeClause .small data start = pure (smallClause (data.drop start)) := by
  unfold smallClauseSize at h
  unfold takeClause smallClause ClauseFormat.small
  simp only [field_drop]
  rw [numberAt_eq (by omega) (by decide), pure_bind, numberAt_eq (by omega) (by decide), pure_bind,
    numberAt_eq (by omega) (by decide), pure_bind, numberAt_eq (by omega) (by decide), pure_bind,
    numberAt_eq (by omega) (by decide), pure_bind, numberAt_eq (by omega) (by decide), pure_bind]
  rfl

theorem takeClause_fat (h : start + fatClauseSize ≤ data.length) :
    takeClause .fat data start = pure (fatClause (data.drop start)) := by
  unfold fatClauseSize at h
  unfold takeClause fatClause ClauseFormat.fat
  simp only [field_drop]
  rw [numberAt_eq (by omega) (by decide), pure_bind, numberAt_eq (by omega) (by decide), pure_bind,
    numberAt_eq (by omega) (by decide), pure_bind, numberAt_eq (by omega) (by decide), pure_bind,
    numberAt_eq (by omega) (by decide), pure_bind, numberAt_eq (by omega) (by decide), pure_bind]
  rfl

/-- Clauses for which there is room are taken one behind the other. -/
theorem takeClauses_eq {f : ClauseFormat} {read : List UInt8 → Clause}
    (hread : ∀ start, start + f.size ≤ data.length →
      takeClause f data start = pure (read (data.drop start)))
    {count : Nat} (h : start + count * f.size ≤ data.length) :
    takeClauses f data count start = pure (clauses f.size read count (data.drop start)) := by
  induction count generalizing start with
  | zero => rfl
  | succ count ih =>
    rw [Nat.succ_mul] at h
    rw [takeClauses, hread start (by omega), pure_bind, ih (by omega), pure_bind, clauses,
      List.drop_drop]

/-- The size in the header of a section. -/
theorem takeSize_eq (h : cursor + headerSize ≤ data.length) :
    takeSize data cursor (hasMark (data.drop cursor) fatFormat) =
      pure (declaredSize (data.drop cursor)) := by
  unfold headerSize at h
  unfold takeSize declaredSize
  split
  · have hword : (do number (← after data cursor) 4) = pure (field data cursor 4) :=
      number_after_eq h (by decide)
    rw [← bind_assoc, hword, pure_bind, ← field_div, field_drop, Nat.add_zero]
  · rw [number_after_eq (by omega) (by decide), field_drop]

/-- The table in a section that there is room for. -/
theorem takeTable_eq (hsize : headerSize ≤ declaredSize (data.drop cursor))
    (h : cursor + declaredSize (data.drop cursor) ≤ data.length) :
    takeTable data cursor (declaredSize (data.drop cursor)) (field data cursor 1) =
      pure (clausesIn (data.drop cursor)) := by
  have hroom : ∀ width, cursor + headerSize +
      (declaredSize (data.drop cursor) - headerSize) / width * width ≤ data.length := by
    intro width
    have hle := Nat.div_mul_le_self (declaredSize (data.drop cursor) - headerSize) width
    omega
  unfold takeTable clausesIn
  simp only [hasMark_drop]
  by_cases htable : hasMark (data.drop cursor) clauseTable
  · rw [if_pos htable, htable]
    by_cases hfat : hasMark (data.drop cursor) fatFormat
    · rw [if_pos hfat, if_pos hfat, takeClauses_eq (fun _ => takeClause_fat) (hroom _),
        List.drop_drop]
      rfl
    · rw [if_neg hfat, if_neg hfat, takeClauses_eq (fun _ => takeClause_small) (hroom _),
        List.drop_drop]
      rfl
  · rw [if_neg htable, Bool.eq_false_iff.mpr htable]
    rfl

/-! ### Visits -/

theorem visit_of_short (h : data.length < cursor + headerSize) :
    visit data cursor = throw .outOfBounds := if_pos h

/-- What a section is, as far as there are bytes for a header. -/
theorem visit_of_room (h : cursor + headerSize ≤ data.length) :
    visit data cursor =
      if declaredSize (data.drop cursor) < headerSize ∨
          data.length < cursor + declaredSize (data.drop cursor) then
        throw (.malformed (.sectionSize (declaredSize (data.drop cursor)) cursor))
      else
        pure (clausesIn (data.drop cursor),
          if hasMark (data.drop cursor) moreSections then
            some (align (cursor + declaredSize (data.drop cursor)))
          else none) := by
  have hmarks : (do number (← after data cursor) 1) = pure (field data cursor 1) :=
    number_after_eq (by unfold headerSize at h; omega) (by decide)
  unfold visit
  rw [if_neg (Nat.not_lt_of_le h), ← bind_assoc, hmarks, pure_bind, hasMark_drop, takeSize_eq h,
    pure_bind]
  split
  · rfl
  · next hsize =>
    rw [takeTable_eq (by omega) (by omega), pure_bind, hasMark_drop]

/-- The next section starts behind the one before, which has a header of its own. -/
theorem visit_advances {clauses : List Clause} {next : Nat}
    (h : (visit data cursor).run = some (.ok (clauses, some next))) :
    cursor + headerSize ≤ next ∧ cursor + headerSize ≤ data.length := by
  rcases Nat.lt_or_ge data.length (cursor + headerSize) with hshort | hroom
  · rw [visit_of_short hshort] at h
    cases h
  · rw [visit_of_room hroom] at h
    split at h
    · cases h
    · next hsize =>
      have hnext := congrArg Prod.snd (Except.ok.inj (Option.some.inj h))
      simp only at hnext
      split at hnext
      · have hle : cursor + declaredSize (data.drop cursor) ≤
            align (cursor + declaredSize (data.drop cursor)) := by
          unfold align
          omega
        cases hnext
        exact ⟨by omega, hroom⟩
      · cases hnext

/-- Looking for bytes behind the cursor is looking at the length. -/
theorem length_take_drop_lt {n : Nat} (hn : 0 < n) :
    ((data.drop cursor).take n).length < n ↔ data.length < cursor + n := by
  rw [List.length_take, List.length_drop]
  omega

/-- The visits come to an end, with the clauses of all sections.  Each visit leaves four bytes
behind, so one visit for each four bytes is enough, and another one for where none are left. -/
theorem run_walk (visits fuel cursor : Nat) (hvisits : 0 < visits)
    (hroom : data.length < cursor + headerSize * visits) (hfuel : data.length < cursor + fuel) :
    (walk data visits cursor).run = some (readChain fuel cursor (data.drop cursor)) := by
  induction visits generalizing fuel cursor with
  | zero => exact absurd hvisits (Nat.lt_irrefl 0)
  | succ visits ih =>
    rw [walk]
    rcases Nat.lt_or_ge data.length (cursor + headerSize) with hshort | hheader
    · have hnone := (length_take_drop_lt (by decide)).mpr hshort
      rw [visit_of_short hshort]
      cases fuel with
      | zero => rfl
      | succ fuel =>
        rw [readChain, if_pos hnone]
        rfl
    obtain ⟨fuel, rfl⟩ : ∃ n, fuel = n + 1 :=
      Nat.exists_eq_succ_of_ne_zero (by unfold headerSize at hheader; omega)
    rw [visit_of_room hheader, readChain,
      if_neg ((length_take_drop_lt (by decide)).not.mpr (Nat.not_lt_of_le hheader))]
    simp only
    -- both look whether the section is all there, here by its end and there by its bytes
    have hsame : declaredSize (data.drop cursor) < headerSize ∨
          ((data.drop cursor).take (declaredSize (data.drop cursor))).length <
            declaredSize (data.drop cursor) ↔
        declaredSize (data.drop cursor) < headerSize ∨
          data.length < cursor + declaredSize (data.drop cursor) := by
      rw [List.length_take, List.length_drop]
      omega
    by_cases hsize : declaredSize (data.drop cursor) < headerSize ∨
        data.length < cursor + declaredSize (data.drop cursor)
    · rw [if_pos hsize, if_pos (hsame.mpr hsize)]
      rfl
    · rw [if_neg hsize, if_neg (hsame.not.mpr hsize), pure_bind]
      by_cases hmore : hasMark (data.drop cursor) moreSections
      · have hnext : cursor + headerSize ≤ align (cursor + declaredSize (data.drop cursor)) := by
          unfold align
          omega
        rw [Nat.mul_succ] at hroom
        unfold headerSize at hnext hheader hroom
        have hlater := ih fuel (align (cursor + declaredSize (data.drop cursor))) (by omega)
          (by unfold headerSize; omega) (by omega)
        rw [if_pos hmore, if_pos hmore]
        simp only
        rw [List.drop_drop, Nat.add_sub_cancel' (by omega)]
        rw [ExceptT.run_bind, hlater]
        rcases readChain fuel _ _ with e | later <;> rfl
      · rw [if_neg hmore, if_neg hmore]
        rfl

/-! ### Room for clauses -/

theorem length_clauses (size : Nat) (read : List UInt8 → Clause) (count : Nat)
    (bytes : List UInt8) : (clauses size read count bytes).length = count := by
  induction count generalizing bytes with
  | zero => rfl
  | succ count ih => rw [clauses, List.length_cons, ih]

/-- A clause takes at least twelve bytes of its section. -/
theorem length_clausesIn (bytes : List UInt8) :
    (clausesIn bytes).length * smallClauseSize ≤ declaredSize bytes - headerSize := by
  have hsmall := Nat.div_mul_le_self (declaredSize bytes - headerSize) smallClauseSize
  have hfat := Nat.div_mul_le_self (declaredSize bytes - headerSize) fatClauseSize
  unfold clausesIn
  simp only
  split
  · exact Nat.le_trans (Nat.le_of_eq (Nat.zero_mul _)) (Nat.zero_le _)
  split
  · rw [length_clauses]
    exact Nat.le_trans (Nat.mul_le_mul_left _ (by decide)) hfat
  · rw [length_clauses]
    exact hsmall

/-- Sections do not overlap, so there is room for the clauses of all of them. -/
theorem length_readChain {fuel : Nat} {table : List Clause}
    (h : readChain fuel cursor bytes = .ok table) :
    table.length * smallClauseSize ≤ bytes.length := by
  induction fuel generalizing cursor bytes table with
  | zero => cases h
  | succ fuel ih =>
    rw [readChain] at h
    split at h
    · cases h
    simp only at h
    split at h
    · cases h
    next hsize =>
    have hroom := length_clausesIn bytes
    have hlength : declaredSize bytes ≤ bytes.length := by
      rw [List.length_take] at hsize
      omega
    split at h
    · -- the sections behind this one are read from what it leaves
      have hnext : cursor + declaredSize bytes ≤ align (cursor + declaredSize bytes) := by
        unfold align
        omega
      split at h
      · next later hlater =>
        cases h
        have hle := ih hlater
        rw [List.length_drop] at hle
        rw [List.length_append, Nat.add_mul]
        omega
      · cases h
    · cases h
      omega

end Section

namespace MethodBody

open Slicing

variable {data : List UInt8} {b : MethodBody}

/-! ### Bodies -/

theorem run_takeTiny (first : UInt8) (data : List UInt8) :
    (takeTiny data first.toNat).run = some (readTiny first data) := by
  unfold takeTiny readTiny
  simp only
  split <;> rfl

/-- A fat header is read from inside the bytes, as there are twelve of them. -/
theorem run_takeFat {visits : Nat} (h : data.length / Section.headerSize < visits) :
    (takeFat visits data).run = some (readFat data) := by
  unfold takeFat readFat
  simp only
  rcases Nat.lt_or_ge data.length fatHeaderSize with hshort | hroom
  · rw [if_pos hshort, if_pos hshort]
    rfl
  rw [if_neg (Nat.not_lt_of_le hroom), if_neg (Nat.not_lt_of_le hroom)]
  unfold fatHeaderSize at hroom
  rw [number, numberAt_eq (by omega) (by decide), pure_bind]
  split
  · rfl
  rw [← bind_assoc, number_after_eq (by omega) (by decide), pure_bind]
  split
  · rfl
  rw [← bind_assoc, number_after_eq (by omega) (by decide), pure_bind, ← bind_assoc,
    number_after_eq (by omega) (by decide), pure_bind]
  split
  · -- a visit takes the four bytes of a header at least, so the visits do not run out
    have hvisits : data.length < Section.headerSize * visits := by
      rw [Nat.mul_comm]
      exact (Nat.div_lt_iff_lt_mul (by decide)).mp h
    rw [ExceptT.run_bind, Section.run_walk visits (data.length + 1) _ (Nat.zero_lt_of_lt h)
      (by omega) (by omega)]
    unfold Section.readAll
    rcases Section.readChain _ _ _ with e | clauses <;> rfl
  · rfl

/-- Every body is read without a slice that is not there, and reading comes to an end. -/
theorem run_take {visits : Nat} (h : data.length / Section.headerSize < visits) :
    (take visits data).run = some (read data) := by
  unfold take read
  cases data with
  | nil => rfl
  | cons first rest =>
    have hfirst : Section.field (first :: rest) 0 1 = first.toNat := by
      simp [Section.field, LittleEndian.value]
    rw [if_neg (by simp), number, numberAt_eq (by simp) (by decide), pure_bind, hfirst]
    simp only
    split
    · exact run_takeTiny first _
    split
    · exact run_takeFat h
    · rw [UInt8.ofNat_toNat]
      rfl

/-- What a fat header announces is there. -/
theorem readFat_eq_ok (h : readFat data = .ok b) :
    b.isFat = true ∧ b.headerSize + b.codeSize ≤ data.length ∧
      b.clauses.length * Section.smallClauseSize ≤
        data.length - (b.headerSize + b.codeSize) := by
  unfold readFat at h
  simp only at h
  split at h
  · cases h
  split at h
  · cases h
  split at h
  · cases h
  next hcode =>
  rw [Nat.add_comm] at hcode
  split at h
  · obtain ⟨clauses, hclauses, h⟩ := bind_eq_ok.mp h
    cases h
    have hroom := Section.length_readChain hclauses
    have halign : ∀ n, n ≤ Section.align n := fun n => by
      unfold Section.align
      omega
    rw [List.length_drop] at hroom
    exact ⟨rfl, Nat.le_of_not_lt hcode, Nat.le_trans hroom (Nat.sub_le_sub_left (halign _) _)⟩
  · cases h
    exact ⟨rfl, Nat.le_of_not_lt hcode, by simp⟩

theorem readTiny_eq_ok {first : UInt8} (h : readTiny first data = .ok b) :
    b.isFat = false ∧ b.clauses = [] ∧ b.headerSize + b.codeSize ≤ data.length := by
  unfold readTiny at h
  simp only at h
  split at h
  · cases h
  next hcode =>
  cases h
  refine ⟨rfl, rfl, ?_⟩
  simp only
  omega

/-- Reading a body ends for any bytes, after no more visits to sections than one for each four
bytes and another one, and no slice it takes begins or ends outside of the bytes.  Each section
that is visited begins behind the header of the one before.  When a body was read, header
and code are there, with the code where the header says; a body with a tiny header has no
clauses; and behind the code there are at least twelve bytes for each clause. -/
theorem read_in_bounds (data : List UInt8) :
    (∀ visits, data.length / Section.headerSize < visits →
      (take visits data).run = some (read data)) ∧
    (∀ (cursor next : Nat) (clauses : List Clause),
      (Section.visit data cursor).run = some (.ok (clauses, some next)) →
      cursor + Section.headerSize ≤ next ∧ cursor + Section.headerSize ≤ data.length) ∧
    ∀ b : MethodBody, read data = .ok b →
      b.headerSize + b.codeSize ≤ data.length ∧
      (∃ code, b.code data = .ok code ∧ code.length = b.codeSize) ∧
      (b.isFat = false → b.clauses = []) ∧
      b.clauses.length * 12 ≤ data.length - (b.headerSize + b.codeSize) := by
  refine ⟨fun _ => run_take, fun cursor next clauses h => Section.visit_advances h, fun b h => ?_⟩
  obtain ⟨hsize, htiny, hroom⟩ : b.headerSize + b.codeSize ≤ data.length ∧
      (b.isFat = false → b.clauses = []) ∧
      b.clauses.length * Section.smallClauseSize ≤ data.length - (b.headerSize + b.codeSize) := by
    unfold read at h
    split at h
    · cases h
    split at h
    · obtain ⟨-, hclauses, hsize⟩ := readTiny_eq_ok h
      refine ⟨hsize, fun _ => hclauses, ?_⟩
      simp [hclauses]
    split at h
    · obtain ⟨hfat, hsize, hroom⟩ := readFat_eq_ok h
      exact ⟨hsize, fun hthin => absurd (hfat.symm.trans hthin) (by decide), hroom⟩
    · cases h
  refine ⟨hsize, ⟨(data.drop b.headerSize).take b.codeSize, ?_, ?_⟩, htiny, hroom⟩
  · unfold code size
    rw [if_neg (by omega)]
  · rw [List.length_take, List.length_drop]
    omega

/-- A return behind a fat header, then a section that holds nothing and one that holds a clause. -/
def returnAndSections : List UInt8 :=
  [0x0B, 0x30, 8, 0, 1, 0, 0, 0, 0, 0, 0, 0, 0x2A, 0, 0, 0, 0x80, 4, 0, 0,
    0x01, 16, 0, 0, 2, 0, 0, 0, 1, 1, 0, 0, 0, 0, 0, 0]

/-- Ten visits are enough, the second section starts behind the first, and its clause fits. -/
theorem read_in_bounds_returnAndSections :
    (take 10 returnAndSections).run = some (read returnAndSections) ∧
    (Section.visit returnAndSections 16).run = some (.ok ([], some 20)) ∧
      16 + Section.headerSize ≤ 20 ∧
      ∃ b, read returnAndSections = .ok b ∧ b.clauses.length = 1 ∧
        b.clauses.length * 12 ≤ returnAndSections.length - (b.headerSize + b.codeSize) := by
  obtain ⟨hends, hadvances, hread⟩ := read_in_bounds returnAndSections
  have hvisit : (Section.visit returnAndSections 16).run = some (.ok ([], some 20)) := rfl
  obtain ⟨b, hb, hlength⟩ : ∃ b, read returnAndSections = .ok b ∧ b.clauses.length = 1 :=
    ⟨_, rfl, rfl⟩
  obtain ⟨-, -, -, hroom⟩ := hread b hb
  exact ⟨hends 10 (by decide), hvisit, (hadvances 16 20 [] hvisit).1, b, hb, hlength, hroom⟩

end MethodBody

end CilProbe
