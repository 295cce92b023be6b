/-
CilProbe/Proofs/Signature/Attempts.lean

Types that cannot be pushed.  Where no slot is left a type is refused before anything happens.
A type that cannot be written fails in the middle: it gets no slot, but the bytes in front of
the failure, of which there is at least the one that starts the type, stay behind those of the
other types (`push_eq_error`).  What is written afterwards is then no longer what was written
before, and a type that is pushed next may be read as the rest of the one that failed.

A signature stays one that can be parsed as long as no type fails in the middle
(`Whole.tries`).
-/
import CilProbe.Proofs.Signature.Locals

namespace CilProbe

namespace Locals

variable {l l' : Locals} {blob : List UInt8} {t : TypeSig} {e : Error}

/-! ### Pushes that fail -/

/-- A push fails for want of a slot, and then nothing has happened, or in the middle of the
type, and then the bytes in front of the failure stay. -/
theorem push_eq_error (h : l.push t = (.error e, l')) :
    l.count ≥ slotLimit ∧ e = .malformed (.tooManyLocals l.count) ∧ l' = l ∨
      l.count < slotLimit ∧ t.encode = .error e ∧ l' = ⟨l.count, l.types ++ t.write.bytes⟩ := by
  unfold push at h
  split at h
  · next hfull =>
    cases h
    exact .inl ⟨hfull, rfl, rfl⟩
  · next hroom =>
    simp only at h
    split at h
    · next hfailure =>
      cases h
      refine .inr ⟨Nat.lt_of_not_le hroom, ?_, rfl⟩
      unfold TypeSig.encode Written.toExcept
      rw [hfailure]
    · cases h

theorem count_of_push_eq_error (h : l.push t = (.error e, l')) : l'.count = l.count := by
  rcases push_eq_error h with ⟨-, -, rfl⟩ | ⟨-, -, rfl⟩ <;> rfl

/-- What is written after a failure in the middle of a type ends with the bytes left over. -/
theorem encode_append {bytes : List UInt8} (hl : l.count ≤ Compressed.limit)
    (h : l.encode = .ok bytes) (more : List UInt8) :
    (⟨l.count, l.types ++ more⟩ : Locals).encode = .ok (bytes ++ more) := by
  obtain ⟨numeral, hnumeral, hencode, -⟩ := encode_eq hl
  obtain rfl := Except.ok.inj (hencode.symm.trans h)
  obtain ⟨numeral', hnumeral', hencode', -⟩ :=
    encode_eq (show (⟨l.count, l.types ++ more⟩ : Locals).count ≤ Compressed.limit from hl)
  obtain rfl := Except.ok.inj (hnumeral.symm.trans hnumeral')
  rw [hencode', List.cons_append, List.append_assoc]

/-- A push that fails leaves what is written as it was exactly if it failed for want of a slot. -/
theorem encode_eq_iff_of_push_eq_error (hl : l.count ≤ Compressed.limit)
    (h : l.push t = (.error e, l')) : l'.encode = l.encode ↔ slotLimit ≤ l.count := by
  obtain ⟨numeral, -, hencode, -⟩ := encode_eq hl
  rcases push_eq_error h with ⟨hfull, -, rfl⟩ | ⟨hroom, -, rfl⟩
  · exact iff_of_true rfl hfull
  · refine iff_of_false (fun heq => ?_) (Nat.not_le_of_lt hroom)
    rw [encode_append hl hencode, hencode] at heq
    exact t.write_ne_nil (List.append_right_eq_self.mp (Except.ok.inj heq))

/-! ### Pushes one after the other -/

/-- Types are pushed one after the other, each with the outcome beside it. -/
inductive Tries : Locals → List (TypeSig × Except Error UInt16) → Locals → Prop
  | nil (l : Locals) : Tries l [] l
  | cons {l l₁ l' : Locals} {t : TypeSig} {outcome : Except Error UInt16}
      {tries : List (TypeSig × Except Error UInt16)} (h : l.push t = (outcome, l₁))
      (hmore : Tries l₁ tries l') : Tries l ((t, outcome) :: tries) l'

variable {attempts : List (TypeSig × Except Error UInt16)}

/-- Whether a type was pushed. -/
def succeeded (attempt : TypeSig × Except Error UInt16) : Bool := attempt.2.isOk

/-- Only types that were pushed are counted. -/
theorem Tries.count_eq (h : l.Tries attempts l') :
    l'.count = l.count + attempts.countP succeeded := by
  induction h with
  | nil => rfl
  | @cons l l₁ l' t outcome attempts hpush _ ih =>
    rw [ih, List.countP_cons]
    cases outcome with
    | error e =>
      rw [count_of_push_eq_error hpush]
      rfl
    | ok slot =>
      obtain ⟨-, -, bytes, -, rfl⟩ := push_eq_ok hpush
      show l.count + 1 + _ = l.count + (_ + 1)
      omega

theorem Tries.count_le (h : l.Tries attempts l') (hl : l.count ≤ Compressed.limit) :
    l'.count ≤ Compressed.limit := by
  induction h with
  | nil => exact hl
  | @cons l l₁ l' t outcome attempts hpush _ ih =>
    cases outcome with
    | error e => exact ih (count_of_push_eq_error hpush ▸ hl)
    | ok slot => exact ih ((Pushes.cons hpush (.nil _)).count_le hl)

/-- Where no slot is left everything is refused. -/
theorem Tries.refused (h : l.Tries attempts l') (hfull : slotLimit ≤ l.count) :
    l' = l ∧ ∀ attempt ∈ attempts, attempt.2 = .error (.malformed (.tooManyLocals l.count)) := by
  induction h with
  | nil => exact ⟨rfl, by simp⟩
  | @cons l l₁ l' t outcome attempts hpush _ ih =>
    have hrefused : l.push t = (.error (.malformed (.tooManyLocals l.count)), l) := if_pos hfull
    obtain ⟨rfl, rfl⟩ := Prod.mk.inj (hrefused.symm.trans hpush)
    obtain ⟨rfl, hall⟩ := ih hfull
    exact ⟨rfl, List.forall_mem_cons.mpr ⟨rfl, hall⟩⟩

/-- While there are slots, a push adds what comes out of the type, all of it or not. -/
theorem types_push (hroom : l.count < slotLimit) {outcome : Except Error UInt16}
    (h : l.push t = (outcome, l')) : l'.types = l.types ++ t.write.bytes := by
  cases outcome with
  | error e =>
    rcases push_eq_error h with ⟨hfull, -⟩ | ⟨-, -, rfl⟩
    · exact absurd hroom (Nat.not_lt_of_le hfull)
    · rfl
  | ok slot =>
    obtain ⟨-, -, bytes, hbytes, rfl⟩ := push_eq_ok h
    rw [Written.toExcept_eq_ok.mp hbytes]
    rfl

/-- Behind the types there were stand the bytes of all that was tried before the slots were used
up, written to its end or not. -/
theorem Tries.types_eq (h : l.Tries attempts l') :
    ∃ tried refused, attempts = tried ++ refused ∧
      (∀ attempt ∈ refused, attempt.2 = .error (.malformed (.tooManyLocals l'.count))) ∧
      l'.types = l.types ++ tried.flatMap fun attempt => attempt.1.write.bytes := by
  induction h with
  | nil => exact ⟨[], [], rfl, by simp, (List.append_nil _).symm⟩
  | @cons l l₁ l' t outcome attempts hpush hmore ih =>
    rcases Nat.lt_or_ge l.count slotLimit with hroom | hfull
    · obtain ⟨tried, refused, rfl, hrefused, htypes⟩ := ih
      refine ⟨(t, outcome) :: tried, refused, rfl, hrefused, ?_⟩
      rw [htypes, types_push hroom hpush, List.flatMap_cons, List.append_assoc]
    · obtain ⟨rfl, hall⟩ := (Tries.cons hpush hmore).refused hfull
      exact ⟨[], _, rfl, hall, (List.append_nil _).symm⟩

/-- As long as no type fails in the middle, the types are as many as are counted. -/
theorem Whole.tries (hl : l.Whole) (h : l.Tries attempts l')
    (hfailed : ∀ t e, (t, .error e) ∈ attempts → ∃ bytes, t.encode = .ok bytes)
    (hpushed : ∀ t slot, (t, .ok slot) ∈ attempts → t.StandsAlone) : l'.Whole := by
  induction h with
  | nil => exact hl
  | @cons l l₁ l' t outcome attempts hpush _ ih =>
    refine ih ?_ (fun t e ht => hfailed t e (List.mem_cons_of_mem _ ht))
      fun t slot ht => hpushed t slot (List.mem_cons_of_mem _ ht)
    cases outcome with
    | error e =>
      obtain ⟨bytes, hbytes⟩ := hfailed t e List.mem_cons_self
      rcases push_eq_error hpush with ⟨-, -, rfl⟩ | ⟨-, hencode, -⟩
      · exact hl
      · cases hbytes.symm.trans hencode
    | ok slot =>
      refine hl.pushes (.cons hpush (.nil _)) fun t' ht' => ?_
      obtain rfl := List.mem_singleton.mp ht'
      exact hpushed t' slot List.mem_cons_self

/-! ### What failures leave behind -/

/-- A push that fails counts nothing.  What is written afterwards is what was written before if
there was no slot left, and otherwise that with the beginning of the type behind it, of which
there is at least one byte.

After any pushes, what is written is the number of those that succeeded, with the locals there
were, in front of the types there were and of all that came out of the types tried while there
were slots; it is parsed to its last byte, as the locals it was written for, if each type that
failed could have been written and each that was pushed is read by itself to its last byte. -/
theorem failed_pushes {tries : List (TypeSig × Except Error UInt16)}
    (hparse : parse blob = .ok l) (htries : l.Tries tries l') :
    (∀ (t : TypeSig) (e : Error) (l'' : Locals), l'.push t = (.error e, l'') →
      l''.count = l'.count ∧ (l''.encode = l'.encode ↔ slotLimit ≤ l'.count) ∧
      (slotLimit ≤ l'.count → e = .malformed (.tooManyLocals l'.count) ∧ l'' = l') ∧
      (l'.count < slotLimit → t.encode = .error e ∧ t.write.bytes ≠ [] ∧
        ∃ bytes, l'.encode = .ok bytes ∧ l''.encode = .ok (bytes ++ t.write.bytes))) ∧
    l'.count = l.count + tries.countP succeeded ∧
    (∃ numeral tried refused, Compressed.encode l'.count = .ok numeral ∧
      tries = tried ++ refused ∧
      (∀ attempt ∈ refused, attempt.2 = .error (.malformed (.tooManyLocals l'.count))) ∧
      l'.encode = .ok (0x07 :: (numeral ++
        (l.types ++ tried.flatMap fun attempt => attempt.1.write.bytes)))) ∧
    ((∀ t e, (t, .error e) ∈ tries → ∃ bytes, t.encode = .ok bytes) →
      (∀ t slot, (t, .ok slot) ∈ tries → t.StandsAlone) →
      ∃ bytes start, l'.encode = .ok bytes ∧ parse bytes = .ok l' ∧
        readBounds.start (Cursor.start bytes) =
          (.ok (l'.count, start, bytes.length), ⟨bytes.length, []⟩)) := by
  have hwhole := whole_of_parse hparse
  have hle := htries.count_le hwhole.count_le
  obtain ⟨numeral, hnumeral, hencode, -⟩ := encode_eq hle
  obtain ⟨tried, refused, hsplit, hrefused, htypes⟩ := htries.types_eq
  refine ⟨fun t e l'' h => ?_, htries.count_eq,
    ⟨numeral, tried, refused, hnumeral, hsplit, hrefused, htypes ▸ hencode⟩,
    fun hfailed hpushed => ?_⟩
  · refine ⟨count_of_push_eq_error h, encode_eq_iff_of_push_eq_error hle h, fun hfull => ?_,
      fun hroom => ?_⟩
    · rcases push_eq_error h with ⟨-, he, hl⟩ | ⟨hroom, -⟩
      · exact ⟨he, hl⟩
      · exact absurd hroom (Nat.not_lt_of_le hfull)
    · rcases push_eq_error h with ⟨hfull, -⟩ | ⟨-, he, rfl⟩
      · exact absurd hroom (Nat.not_lt_of_le hfull)
      · exact ⟨he, t.write_ne_nil, _, hencode, encode_append hle hencode _⟩
  · have hwhole' := hwhole.tries htries hfailed hpushed
    obtain ⟨-, numeral', -, hreads⟩ := hwhole'.reads_encode hencode
    have hread := hreads []
    rw [List.append_nil, Nat.zero_add] at hread
    exact ⟨_, _, hencode, hwhole'.parse_encode hencode, hread⟩

/-- A vector of something that is no class. -/
def vectorOfNothing : TypeSig := .vector (.classType ⟨0⟩)

/-- Behind a number and an object the vector leaves the two bytes it starts with. -/
theorem failed_pushes_vectorOfNothing :
    parse [0x07, 0x01, 0x08] = .ok ⟨1, [0x08]⟩ ∧
      (⟨1, [0x08]⟩ : Locals).Tries [(.primitive .object, .ok 1)] ⟨2, [0x08, 0x1C]⟩ ∧
      (∃ bytes start, (⟨2, [0x08, 0x1C]⟩ : Locals).encode = .ok bytes ∧
        readBounds.start (Cursor.start bytes) =
          (.ok (2, start, bytes.length), ⟨bytes.length, []⟩)) ∧
      ∃ e, (⟨2, [0x08, 0x1C]⟩ : Locals).push vectorOfNothing =
          (.error e, ⟨2, [0x08, 0x1C, 0x1D, 0x12]⟩) ∧
        (⟨2, [0x08, 0x1C, 0x1D, 0x12]⟩ : Locals).encode ≠
          (⟨2, [0x08, 0x1C]⟩ : Locals).encode := by
  have htries : (⟨1, [0x08]⟩ : Locals).Tries [(.primitive .object, .ok 1)] ⟨2, [0x08, 0x1C]⟩ :=
    .cons rfl (.nil _)
  obtain ⟨hfail, -, -, hread⟩ :=
    failed_pushes (show parse [0x07, 0x01, 0x08] = .ok ⟨1, [0x08]⟩ from rfl) htries
  obtain ⟨bytes, start, hbytes, -, hstart⟩ := hread (by simp) (by
    intro t slot ht
    obtain ⟨rfl, -⟩ := Prod.mk.inj (List.mem_singleton.mp ht)
    exact ⟨[0x1C], .primitive .object, rfl, rfl⟩)
  refine ⟨rfl, htries, ⟨bytes, start, hbytes, hstart⟩, .malformed (.notTypeToken ⟨0⟩), rfl, ?_⟩
  obtain ⟨-, hiff, -⟩ := hfail vectorOfNothing _ _ rfl
  exact fun heq => absurd (hiff.mp heq) (by decide)

/-- A push that fails does not leave what is written as it was. -/
theorem encode_changed_by_failure :
    ¬ ∀ (blob : List UInt8) (l l' : Locals) (t : TypeSig) (e : Error),
      parse blob = .ok l → l.push t = (.error e, l') →
      l'.count = l.count ∧ l'.encode = l.encode := by
  intro h
  obtain ⟨-, hencode⟩ := h [0x07, 0x01, 0x08] _ ⟨1, [0x08, 0x1D, 0x12]⟩ vectorOfNothing _ rfl rfl
  exact absurd hencode (by decide)

end Locals

end CilProbe
