/-
CilProbe/Proofs/Signature/Locals.lean

Locals are added behind those there are.  The types of the locals are kept as bytes, so what
is written after some types were pushed starts, after the count, with the very bytes that were
read.  That it can be parsed again is a matter of the readers: they look at nothing but the
bytes they pass (`TypeSig.local_read`), so the old types are read as before behind another
count, and a new type is read behind them if its own encoding, by itself, is one type and no
more.
-/
import CilProbe.Proofs.Bytes.Locality
import CilProbe.Proofs.Outcome
import CilProbe.Proofs.Signature.Rereading
import CilProbe.Signature.Locals

namespace CilProbe

open Reader

/-! ### Types are read by their bytes -/

namespace TypeSig

variable {read inner deeper : Reader TypeSig}

theorem local_numbers : Local 0 (readNumbers .any) :=
  Compressed.local_read.bind fun n => Compressed.local_read.times n

theorem local_instanceKind : Local 0 readInstanceKind := by
  refine Local.byte.weaken.bind fun b => ?_
  split
  · exact .pure _
  split
  · exact .pure _
  · exact .throw _

/-- A parameter list is read in the same way with any fuel that there is a byte for. -/
theorem exists_readsAt_paramsAfter (hread : Local 1 read) (fuel : Nat) :
    ∀ {missing : Nat} {done params : List TypeSig} {c c' : Cursor},
      (paramsAfter read fuel missing done).start c = (.ok params, c') →
      ∃ bytes, c.rest = bytes ++ c'.rest ∧ ∀ fuel', bytes.length ≤ fuel' →
        ∀ pos, ReadsAt (paramsAfter read fuel' missing done) pos bytes params := by
  induction fuel with
  | zero =>
    intro missing done params c c' h
    cases missing with
    | succ missing => cases h
    | zero =>
      obtain ⟨rfl, rfl⟩ := start_pure_eq_ok.mp h
      refine ⟨[], rfl, fun fuel' _ pos => ?_⟩
      rw [paramsAfter_zero]
      exact .pure pos _
  | succ fuel ih =>
    intro missing done params c c' h
    cases missing with
    | zero =>
      obtain ⟨rfl, rfl⟩ := start_pure_eq_ok.mp h
      refine ⟨[], rfl, fun fuel' _ pos => ?_⟩
      rw [paramsAfter_zero]
      exact .pure pos _
    | succ missing =>
      obtain ⟨t, c₁, ht, h⟩ := start_bind_eq_ok.mp h
      obtain ⟨first, hpos, hrest, hfirst⟩ := hread ht
      obtain ⟨bytes, hrest', hbytes⟩ := ih h
      refine ⟨first ++ bytes, by rw [hrest, hrest', List.append_assoc], fun fuel' hle pos => ?_⟩
      rw [List.length_append] at hle
      obtain ⟨fuel', rfl⟩ : ∃ k, fuel' = k + 1 := ⟨fuel' - 1, by omega⟩
      exact (hfirst pos).bind (hbytes fuel' (by omega) _)

theorem local_params (hread : Local 1 read) (count : Nat) : Local 0 (readParams read count) := by
  intro c c' params h
  obtain ⟨bytes, hrest, hbytes⟩ := exists_readsAt_paramsAfter hread c.remaining h
  refine ⟨bytes, Nat.zero_le _, hrest, fun pos rest => hbytes (bytes ++ rest).length ?_ pos rest⟩
  rw [List.length_append]
  exact Nat.le_add_right _ _

end TypeSig

theorem MethodSig.local_readWith {read : Reader TypeSig} (hread : Local 1 read) :
    Local 0 (readWith .any read) := by
  rw [readWith_eq]
  refine Local.byte.weaken.bind fun convention => ?_
  split
  · exact .throw _
  refine Local.bind ?_ fun generics => ?_
  · unfold readGenerics
    split
    · exact Compressed.local_read
    · exact .pure 0
  · refine Compressed.local_read.bind fun count => ?_
    refine hread.weaken.bind fun ret => ?_
    exact (TypeSig.local_params hread count).bind_pure _

namespace TypeSig

variable {inner deeper : Reader TypeSig}

theorem local_after (hinner : Local 1 inner) (hdeeper : Local 1 deeper) (l : Lead) :
    Local 0 (readAfter .any inner deeper l) := by
  cases l with
  | pointer | byRef | vector | pinned => exact hinner.weaken.bind_pure _
  | valueType | classType => exact Compressed.local_readToken.bind_pure _
  | typeVar | methodVar => exact Compressed.local_read.bind_pure _
  | sentinel => exact .pure _
  | array =>
    refine hinner.weaken.bind fun element => ?_
    refine Compressed.local_read.bind fun rank => ?_
    refine local_numbers.bind fun sizes => ?_
    exact local_numbers.bind_pure _
  | instance_ =>
    refine local_instanceKind.bind fun isValueType => ?_
    refine Compressed.local_readToken.bind fun generic => ?_
    refine Compressed.local_read.bind fun count => ?_
    exact (hinner.weaken.times count).bind_pure _
  | function => exact (MethodSig.local_readWith hdeeper).bind_pure _
  | modified required =>
    refine Compressed.local_readToken.bind fun modifier => ?_
    exact hinner.weaken.bind_pure _

/-- A type is read by its bytes, of which there is at least the one it starts with. -/
theorem local_levels (levels : Nat) : Local 1 (readLevels .any levels) := by
  induction levels using Nat.strongRecOn with
  | ind levels ih =>
    cases levels with
    | zero => exact .throw _
    | succ levels =>
      rw [readLevels_succ]
      refine Local.byte.bind fun b => ?_
      unfold readFrom
      cases Primitive.ofCode? b with
      | some p => exact .pure _
      | none =>
        cases Lead.ofCode? b with
        | some l => exact local_after (ih levels (by omega)) (ih (levels - 1) (by omega)) l
        | none => exact .throw _

theorem local_read : Local 1 read := local_levels _

end TypeSig

/-! ### Pushing -/

/-- The encoding of a type, by itself, is read as a type to its last byte. -/
def TypeSig.StandsAlone (t : TypeSig) : Prop :=
  ∃ bytes t', t.encode = .ok bytes ∧ read.start (Cursor.start bytes) = (.ok t', ⟨bytes.length, []⟩)

namespace Locals

variable {l l' : Locals} {blob : List UInt8} {ts : List TypeSig} {slots : List UInt16}

/-- Types are pushed one after the other, each with success. -/
inductive Pushes : Locals → List TypeSig → List UInt16 → Locals → Prop
  | nil (l : Locals) : Pushes l [] [] l
  | cons {l l₁ l' : Locals} {t : TypeSig} {ts : List TypeSig} {slot : UInt16}
      {slots : List UInt16} (h : l.push t = (.ok slot, l₁)) (hmore : Pushes l₁ ts slots l') :
      Pushes l (t :: ts) (slot :: slots) l'

theorem push_eq_ok {t : TypeSig} {slot : UInt16} (h : l.push t = (.ok slot, l')) :
    l.count < slotLimit ∧ slot.toNat = l.count ∧
      ∃ bytes, t.encode = .ok bytes ∧ l' = ⟨l.count + 1, l.types ++ bytes⟩ := by
  unfold push at h
  split at h
  · cases h
  next hfull =>
  have hlt : l.count < slotLimit := Nat.lt_of_not_le hfull
  simp only at h
  split at h
  · cases h
  next hfailure =>
  cases h
  refine ⟨hlt, UInt16.toNat_ofNat_of_lt' (Nat.lt_trans hlt (by decide)), t.write.bytes, ?_, rfl⟩
  unfold TypeSig.encode Written.toExcept
  rw [hfailure]

/-- Slots are given out in order, and the bytes of the types come behind those there are. -/
theorem Pushes.eq (h : l.Pushes ts slots l') :
    slots.map UInt16.toNat = List.range' l.count ts.length ∧
      ∃ encodings, ts.mapM TypeSig.encode = .ok encodings ∧
        l' = ⟨l.count + ts.length, l.types ++ encodings.flatten⟩ := by
  induction h with
  | nil l => exact ⟨rfl, [], rfl, by simp⟩
  | @cons l l₁ l' t ts slot slots hpush _ ih =>
    obtain ⟨-, hslot, bytes, hbytes, rfl⟩ := push_eq_ok hpush
    obtain ⟨hslots, encodings, hencodings, rfl⟩ := ih
    refine ⟨?_, bytes :: encodings, ?_, ?_⟩
    · rw [List.map_cons, hslot, hslots]
      rfl
    · exact mapM_eq_ok.mpr (.cons hbytes (mapM_eq_ok.mp hencodings))
    · rw [List.flatten_cons, List.append_assoc, List.length_cons, Nat.add_assoc, Nat.add_comm 1]

theorem Pushes.count_le (h : l.Pushes ts slots l') (hl : l.count ≤ Compressed.limit) :
    l'.count ≤ Compressed.limit := by
  induction h with
  | nil => exact hl
  | cons hpush _ ih =>
    obtain ⟨hlt, -, bytes, -, rfl⟩ := push_eq_ok hpush
    exact ih (Nat.le_trans hlt (by decide))

/-! ### Parsing again -/

/-- The bytes of the types are read, wherever they stand, as as many types as are counted. -/
structure Whole (l : Locals) : Prop where
  count_le : l.count ≤ Compressed.limit
  types : ∃ ts, ∀ pos, ReadsAt (Reader.times l.count TypeSig.read) pos l.types ts

theorem Whole.pushes (hl : l.Whole) (h : l.Pushes ts slots l') (hts : ∀ t ∈ ts, t.StandsAlone) :
    l'.Whole := by
  induction h with
  | nil => exact hl
  | @cons l l₁ l' t ts slot slots hpush hmore ih =>
    obtain ⟨⟨bytes, t', hbytes, hread⟩, hts⟩ := List.forall_mem_cons.mp hts
    obtain ⟨hlt, -, bytes', hbytes', rfl⟩ := push_eq_ok hpush
    obtain rfl := Except.ok.inj (hbytes.symm.trans hbytes')
    obtain ⟨old, hold⟩ := hl.types
    obtain ⟨consumed, -, hrest, hreads⟩ := TypeSig.local_read hread
    obtain rfl : bytes = consumed := hrest.trans (List.append_nil consumed)
    exact ih ⟨Nat.le_trans hlt (by decide), old ++ [t'],
      fun pos => (hold pos).times_succ (hreads _)⟩ hts

/-- Locals stand in a signature as their count, in any form, and the bytes of their types. -/
structure StandIn (l : Locals) (blob : List UInt8) : Prop where
  whole : l.Whole
  bytes : ∃ numeral rest,
    blob = UInt8.ofNat MethodSig.localsKind :: (numeral ++ (l.types ++ rest)) ∧
    ∀ pos, ReadsAt Compressed.read pos numeral l.count

theorem readBounds_eq :
    readBounds = Reader.byte >>= fun lead =>
      if lead.toNat = MethodSig.localsKind then
        Compressed.read >>= fun count => Reader.position >>= fun start =>
          Reader.times count TypeSig.read >>= fun _ => Reader.position >>= fun stop =>
            pure (count, start, stop)
      else throw (.malformed (.localsLead lead)) := rfl

/-- Between their two ends stand the bytes of the types. -/
theorem take_drop_types (lead : UInt8) (numeral types rest : List UInt8) :
    ((lead :: (numeral ++ (types ++ rest))).drop (1 + numeral.length)).take
      (1 + numeral.length + types.length - (1 + numeral.length)) = types := by
  rw [Nat.add_sub_cancel_left, Nat.add_comm 1, List.drop_succ_cons, List.drop_left, List.take_left]

/-- Parsing takes the bytes of the types out of the signature. -/
theorem standIn_of_parse (h : parse blob = .ok l) (hblob : blob ≠ []) : l.StandIn blob := by
  unfold parse at h
  rw [if_neg (by simpa using hblob)] at h
  rcases hresult : readBounds.start (Cursor.start blob) with ⟨_ | ⟨count, start, stop⟩, c⟩
  · rw [show Reader.result readBounds blob = _ from congrArg Prod.fst hresult] at h
    cases h
  rw [show Reader.result readBounds blob = _ from congrArg Prod.fst hresult] at h
  cases h
  rw [readBounds_eq] at hresult
  obtain ⟨lead, c₁, hlead, hresult⟩ := start_bind_eq_ok.mp hresult
  split at hresult
  · next hkind =>
    obtain ⟨_, c₂, hcount, hresult⟩ := start_bind_eq_ok.mp hresult
    obtain ⟨_, _, ⟨⟩, hresult⟩ := start_bind_eq_ok.mp hresult
    obtain ⟨ts, c₃, hts, hresult⟩ := start_bind_eq_ok.mp hresult
    obtain ⟨_, _, ⟨⟩, hresult⟩ := start_bind_eq_ok.mp hresult
    obtain ⟨⟨⟩, -⟩ := start_pure_eq_ok.mp hresult
    obtain ⟨hrest₁, hpos₁⟩ := finds_byte hlead
    obtain ⟨numeral, -, hrest₂, hnumeral⟩ := Compressed.local_read hcount
    obtain ⟨types, -, hrest₃, htypes⟩ := (TypeSig.local_read.weaken.times count) hts
    have hpos₂ := (hnumeral _).pos_eq hrest₂ hcount
    have hpos₃ := (htypes _).pos_eq hrest₃ hts
    have hblob : blob = lead :: (numeral ++ (types ++ c₃.rest)) := by
      rw [← hrest₃, ← hrest₂]
      exact hrest₁
    have hcut : (blob.drop c₂.pos).take (c₃.pos - c₂.pos) = types := by
      have hstart : c₂.pos = 1 + numeral.length := by
        rw [hpos₂, hpos₁]
        exact congrArg (· + numeral.length) (Nat.zero_add 1)
      rw [hpos₃, hstart, hblob]
      exact take_drop_types lead numeral types c₃.rest
    rw [hcut]
    refine ⟨⟨Compressed.answers_read hcount, ts, htypes⟩, numeral, c₃.rest, ?_, hnumeral⟩
    rw [hblob, ← hkind, UInt8.ofNat_toNat]
  · cases hresult

/-- What is written for locals, of which there are no more than can be counted. -/
theorem encode_eq (h : l.count ≤ Compressed.limit) :
    ∃ numeral, Compressed.encode l.count = .ok numeral ∧
      l.encode = .ok (UInt8.ofNat MethodSig.localsKind :: (numeral ++ l.types)) ∧
      ∀ pos, ReadsAt Compressed.read pos numeral l.count := by
  obtain ⟨numeral, hnumeral, hreads⟩ := Compressed.reads_number h
  refine ⟨numeral, ?_, ?_, hreads⟩
  · unfold Written.number Written.ofExcept at hnumeral
    split at hnumeral
    · next bytes hencode =>
      rw [hencode]
      exact congrArg Except.ok (congrArg Written.bytes hnumeral)
    · cases congrArg Written.failure hnumeral
  · unfold encode write
    rw [hnumeral]
    rfl

theorem length_signature (lead : UInt8) (numeral types : List UInt8) :
    (lead :: (numeral ++ types)).length = 1 + numeral.length + types.length := by
  rw [List.length_cons, List.length_append, Nat.add_comm _ 1, Nat.add_assoc]

/-- Locals that are written are read to the last byte. -/
theorem Whole.reads_encode (h : l.Whole) {bytes : List UInt8} (hbytes : l.encode = .ok bytes) :
    ∃ lead numeral, bytes = lead :: (numeral ++ l.types) ∧
      ReadsAt readBounds 0 bytes (l.count, 1 + numeral.length, bytes.length) := by
  obtain ⟨numeral, -, hencode, hcount⟩ := encode_eq h.count_le
  obtain rfl := Except.ok.inj (hencode.symm.trans hbytes)
  obtain ⟨ts, htypes⟩ := h.types
  set lead := UInt8.ofNat MethodSig.localsKind
  refine ⟨lead, numeral, rfl, ?_⟩
  rw [length_signature, readBounds_eq]
  refine ReadsAt.bind (ReadsAt.byte 0 lead) (?_ : ReadsAt _ _ (numeral ++ l.types) _)
  rw [if_pos (by decide)]
  refine (hcount _).bind ?_
  refine (ReadsAt.position _).bind_nil ?_
  refine (htypes _).bind_end ?_
  exact (ReadsAt.position _).bind_nil (.pure _ _)

/-- Locals that are written are parsed again. -/
theorem Whole.parse_encode (h : l.Whole) {bytes : List UInt8} (hbytes : l.encode = .ok bytes) :
    parse bytes = .ok l := by
  obtain ⟨lead, numeral, rfl, hreads⟩ := h.reads_encode hbytes
  have hresult := hreads []
  rw [List.append_nil] at hresult
  unfold parse
  rw [if_neg (by simp), show Reader.result readBounds _ = _ from congrArg Prod.fst hresult]
  have hcut := take_drop_types lead numeral l.types []
  rw [List.append_nil] at hcut
  rw [length_signature]
  exact congrArg (fun types => Except.ok (Locals.mk l.count types)) hcut

/-- Where there are no bytes there are no locals. -/
theorem whole_of_parse (h : parse blob = .ok l) : l.Whole := by
  rcases eq_or_ne blob [] with rfl | hblob
  · cases h
    exact ⟨Nat.zero_le _, [], fun pos => ReadsAt.pure pos []⟩
  · exact (standIn_of_parse h hblob).whole

/-- What is written when types were pushed to locals: their own bytes, behind the new count and
in front of the encodings of these types. -/
theorem encode_of_pushes (hparse : parse blob = .ok l) (h : l.Pushes ts slots l') :
    ∃ numeral encodings, Compressed.encode (l.count + ts.length) = .ok numeral ∧
      ts.mapM TypeSig.encode = .ok encodings ∧
      l'.encode = .ok (0x07 :: (numeral ++ (l.types ++ encodings.flatten))) := by
  obtain ⟨-, encodings, hencodings, heq⟩ := h.eq
  have hle := h.count_le (whole_of_parse hparse).count_le
  obtain ⟨numeral, hnumeral, hencode, -⟩ := encode_eq hle
  rw [heq] at hnumeral hencode ⊢
  exact ⟨numeral, encodings, hnumeral, hencodings, hencode⟩

/-- They are parsed again if each of the types stands alone. -/
theorem parse_of_pushes (hparse : parse blob = .ok l) (h : l.Pushes ts slots l')
    (hts : ∀ t ∈ ts, t.StandsAlone) {bytes : List UInt8} (hbytes : l'.encode = .ok bytes) :
    parse bytes = .ok l' :=
  ((whole_of_parse hparse).pushes h hts).parse_encode hbytes

/-- An array of pointers to functions with a mark behind the last parameter.  The mark is read
as the rank of the array, and a byte is left over. -/
def marked : TypeSig :=
  .array (.function 0 0 (.primitive .void) [.sentinel]) 0 [] []

/-- It is not enough that a type is read from its encoding: where a byte is left, the next
local is read from there, and what was written cannot be parsed. -/
theorem not_parsed_of_leftover :
    ¬ ∀ (blob bytes : List UInt8) (l l' : Locals) (ts : List TypeSig) (slots : List UInt16),
      parse blob = .ok l → l.Pushes ts slots l' →
      (∀ t ∈ ts, ∃ own t' c, t.encode = .ok own ∧
        TypeSig.read.start (Cursor.start own) = (.ok t', c)) →
      l'.encode = .ok bytes → ∃ l'', parse bytes = .ok l'' ∧ l''.count = l.count + ts.length := by
  intro h
  have hpushes : none.Pushes [marked, .primitive .i8] [0, 1]
      ⟨2, [0x14, 0x1B, 0, 0, 1, 0x41, 0, 0, 0, 0x0A]⟩ :=
    .cons rfl (.cons rfl (.nil _))
  obtain ⟨l'', hparse, -⟩ := h [] [0x07, 2, 0x14, 0x1B, 0, 0, 1, 0x41, 0, 0, 0, 0x0A] _ _ _ _ rfl
    hpushes (by
      intro t ht
      rcases List.mem_pair.mp ht with rfl | rfl
      · exact ⟨[0x14, 0x1B, 0, 0, 1, 0x41, 0, 0, 0],
          .array (.function 0 0 (.primitive .void) []) 0x41 [] [], ⟨8, [0]⟩, rfl, rfl⟩
      · exact ⟨[0x0A], .primitive .i8, ⟨1, []⟩, rfl, rfl⟩) rfl
  cases hparse

end Locals

end CilProbe
