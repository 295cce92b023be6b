/-
CilProbe/Proofs/Bytes/Reading.lean

What the readers do, in two directions.  `ReadsAt r pos bytes a` says that `r`
turns `bytes`, standing at position `pos`, into `a`, whatever follows them; it
composes along `>>=` (`ReadsAt.bind`), so the bytes of a whole are read by
reading the bytes of its parts.  The other direction takes a successful read
apart: `start_bind_eq_ok` splits it at `>>=`, and for each basic reader there is
a lemma that says which bytes it must have found.
-/
import CilProbe.Bytes.Reader

namespace CilProbe

namespace Reader

variable {α β : Type}

/-! ### Running a reader -/

@[simp] theorem start_pure (a : α) (c : Cursor) : (pure a : Reader α).start c = (.ok a, c) := rfl

@[simp] theorem start_throw (e : Error) (c : Cursor) :
    (throw e : Reader α).start c = (.error e, c) := rfl

theorem start_bind (r : Reader α) (f : α → Reader β) (c : Cursor) :
    (r >>= f).start c =
      match r.start c with
      | (.ok a, c') => (f a).start c'
      | (.error e, c') => (.error e, c') := by
  show (ExceptT.bind r f).run c = _
  unfold ExceptT.bind start
  simp only [ExceptT.run, ExceptT.mk, bind, StateT.bind, ExceptT.bindCont]
  rcases r c with ⟨_ | _, _⟩ <;> rfl

/-- A read in two parts succeeds exactly if both parts do. -/
theorem start_bind_eq_ok {r : Reader α} {f : α → Reader β} {c c'' : Cursor} {b : β} :
    (r >>= f).start c = (.ok b, c'') ↔
      ∃ a c', r.start c = (.ok a, c') ∧ (f a).start c' = (.ok b, c'') := by
  rw [start_bind]
  rcases e : r.start c with ⟨err | a, c'⟩
  · simp
  · constructor
    · intro h
      exact ⟨a, c', rfl, h⟩
    · rintro ⟨a', c₁, h, h'⟩
      cases h
      exact h'

theorem start_pure_eq_ok {a b : α} {c c' : Cursor} :
    (pure a : Reader α).start c = (.ok b, c') ↔ a = b ∧ c = c' := by
  rw [start_pure]
  simp

theorem start_byte (c : Cursor) :
    byte.start c =
      match c with
      | ⟨pos, []⟩ => (.error .outOfBounds, ⟨pos, []⟩)
      | ⟨pos, b :: rest⟩ => (.ok b, ⟨pos + 1, rest⟩) := by
  rcases c with ⟨pos, _ | ⟨b, rest⟩⟩ <;> rfl

theorem start_take (n : Nat) (c : Cursor) :
    (take n).start c =
      if (c.rest.take n).length < n then (.error .outOfBounds, c)
      else (.ok (c.rest.take n), c.advance n) := by
  by_cases h : (c.rest.take n).length < n
  · rw [if_pos h]
    show (if _ then _ else _ : Reader (List UInt8)).start c = _
    rw [if_pos h]
    rfl
  · rw [if_neg h]
    show (if _ then _ else _ : Reader (List UInt8)).start c = _
    rw [if_neg h]
    rfl

@[simp] theorem start_position (c : Cursor) : position.start c = (.ok c.pos, c) := rfl

@[simp] theorem start_hasAtLeast (n : Nat) (c : Cursor) :
    (hasAtLeast n).start c = (.ok (decide (n ≤ (c.rest.take n).length)), c) := rfl

/-! ### Bytes that a reader turns into a value -/

/-- Standing at position `pos`, the bytes are read as `a`, whatever follows
them. -/
def ReadsAt (r : Reader α) (pos : Nat) (bytes : List UInt8) (a : α) : Prop :=
  ∀ rest, r.start ⟨pos, bytes ++ rest⟩ = (.ok a, ⟨pos + bytes.length, rest⟩)

namespace ReadsAt

variable {r : Reader α} {f : α → Reader β} {pos : Nat} {bytes more : List UInt8} {a : α} {b : β}

theorem pure (pos : Nat) (a : α) : ReadsAt (Pure.pure a) pos [] a := fun _ => rfl

/-- What reads two runs of bytes in a row reads them put together. -/
theorem bind (hr : ReadsAt r pos bytes a) (hf : ReadsAt (f a) (pos + bytes.length) more b) :
    ReadsAt (r >>= f) pos (bytes ++ more) b := by
  intro rest
  rw [start_bind, List.append_assoc, hr]
  show (f a).start _ = _
  rw [hf, List.length_append, Nat.add_assoc]

theorem bind_pure (hr : ReadsAt r pos bytes a) (g : α → β) :
    ReadsAt (r >>= fun a => Pure.pure (g a)) pos bytes (g a) := by
  have h := hr.bind (f := fun a => Pure.pure (g a)) (pure (pos + bytes.length) (g a))
  rwa [List.append_nil] at h

/-- A first part that reads nothing. -/
theorem bind_nil (hr : ReadsAt r pos [] a) (hf : ReadsAt (f a) pos bytes b) :
    ReadsAt (r >>= f) pos bytes b := hr.bind hf

/-- A last part that reads nothing. -/
theorem bind_end (hr : ReadsAt r pos bytes a) (hf : ReadsAt (f a) (pos + bytes.length) [] b) :
    ReadsAt (r >>= f) pos bytes b := by
  have h := hr.bind hf
  rwa [List.append_nil] at h

theorem position (pos : Nat) : ReadsAt Reader.position pos [] pos := fun _ => rfl

/-- Looking ahead for bytes that are there. -/
theorem hasAtLeast_bind {n : Nat} {f : Bool → Reader β} (hn : n ≤ bytes.length)
    (hf : ReadsAt (f true) pos bytes b) : ReadsAt (Reader.hasAtLeast n >>= f) pos bytes b := by
  intro rest
  rw [start_bind, start_hasAtLeast]
  have hlen : n ≤ ((bytes ++ rest).take n).length := by
    rw [List.length_take, List.length_append]
    omega
  rw [decide_eq_true hlen]
  exact hf rest

/-- Computing something for each item of a list, where no bytes are read. -/
theorem mapM_map {γ : Type} (f : α → Reader β) (key : γ → α) (g : γ → β) {items : List γ}
    (h : ∀ c ∈ items, ReadsAt (f (key c)) pos [] (g c)) :
    ReadsAt ((items.map key).mapM f) pos [] (items.map g) := by
  induction items with
  | nil => exact pure pos []
  | cons c items ih =>
    rw [List.map_cons, List.mapM_cons]
    have htail := ih fun d hd => h d (by simp [hd])
    exact (h c (by simp)).bind_nil (htail.bind_pure (g c :: ·))

theorem byte (pos : Nat) (b : UInt8) : ReadsAt Reader.byte pos [b] b := fun _ => rfl

theorem take (pos : Nat) (bytes : List UInt8) :
    ReadsAt (Reader.take bytes.length) pos bytes bytes := by
  intro rest
  rw [start_take]
  simp [Cursor.advance]

theorem number (pos width n : Nat) (h : n < Nat.pow 256 width) :
    ReadsAt (Reader.number width) pos (LittleEndian.encode width n) n := by
  have hv : LittleEndian.value (LittleEndian.encode width n) = n := by
    rw [LittleEndian.value_encode, Nat.mod_eq_of_lt h]
  have ht := take pos (LittleEndian.encode width n)
  rw [LittleEndian.length_encode] at ht
  have hb := ht.bind_pure LittleEndian.value
  rwa [hv] at hb

theorem word16 (pos : Nat) (w : UInt16) :
    ReadsAt Reader.word16 pos (LittleEndian.ofUInt16 w) w := by
  have h := (number pos 2 w.toNat w.toNat_lt).bind_pure UInt16.ofNat
  rwa [UInt16.ofNat_toNat] at h

theorem word32 (pos : Nat) (w : UInt32) :
    ReadsAt Reader.word32 pos (LittleEndian.ofUInt32 w) w := by
  have h := (number pos 4 w.toNat w.toNat_lt).bind_pure UInt32.ofNat
  rwa [UInt32.ofNat_toNat] at h

theorem word64 (pos : Nat) (w : UInt64) :
    ReadsAt Reader.word64 pos (LittleEndian.ofUInt64 w) w := by
  have h := (number pos 8 w.toNat w.toNat_lt).bind_pure UInt64.ofNat
  rwa [UInt64.ofNat_toNat] at h

theorem int8 (pos : Nat) (i : Int8) : ReadsAt Reader.int8 pos [i.toUInt8] i :=
  (byte pos i.toUInt8).bind_pure UInt8.toInt8

theorem int32 (pos : Nat) (i : Int32) : ReadsAt Reader.int32 pos (LittleEndian.ofInt32 i) i :=
  (word32 pos i.toUInt32).bind_pure UInt32.toInt32

theorem int64 (pos : Nat) (i : Int64) : ReadsAt Reader.int64 pos (LittleEndian.ofInt64 i) i :=
  (word64 pos i.toUInt64).bind_pure UInt64.toInt64

/-- Items that are each read in their place, wherever that is, are read in a
row. -/
theorem timesAfter {bytesOf : α → List UInt8} (items done : List α) (pos : Nat)
    (h : ∀ a ∈ items, ∀ pos, ReadsAt r pos (bytesOf a) a) :
    ReadsAt (Reader.timesAfter r items.length done) pos (items.flatMap bytesOf)
      (done.reverse ++ items) := by
  induction items generalizing done pos with
  | nil =>
    rw [List.append_nil]
    exact pure pos done.reverse
  | cons a items ih =>
    have htail := ih (a :: done) (pos + (bytesOf a).length) fun b hb => h b (by simp [hb])
    rw [List.reverse_cons, List.append_assoc] at htail
    exact (h a (by simp) pos).bind htail

theorem times {bytesOf : α → List UInt8} (items : List α) (pos : Nat)
    (h : ∀ a ∈ items, ∀ pos, ReadsAt r pos (bytesOf a) a) :
    ReadsAt (Reader.times items.length r) pos (items.flatMap bytesOf) items :=
  timesAfter items [] pos h

end ReadsAt

/-! ### Bytes that a successful read has found -/

/-- `r` finds the bytes that `bytesOf` writes for the value it answers with, and
moves behind them. -/
def Finds (r : Reader α) (bytesOf : α → List UInt8) : Prop :=
  ∀ ⦃c c' : Cursor⦄ ⦃a : α⦄, r.start c = (.ok a, c') →
    c.rest = bytesOf a ++ c'.rest ∧ c'.pos = c.pos + (bytesOf a).length

/-- A number is read from as many bytes as it has, and is made of them. -/
theorem start_number_eq_ok {width n : Nat} {c c' : Cursor}
    (h : (number width).start c = (.ok n, c')) :
    n < Nat.pow 256 width ∧ c.rest = LittleEndian.encode width n ++ c'.rest ∧
      c'.pos = c.pos + width := by
  obtain ⟨bytes, c₁, ht, hp⟩ := start_bind_eq_ok.mp h
  obtain ⟨rfl, rfl⟩ := start_pure_eq_ok.mp hp
  rw [start_take] at ht
  split at ht
  · cases ht
  · next hlen =>
    cases ht
    have hl : (c.rest.take width).length = width :=
      Nat.le_antisymm (List.length_take_le width c.rest) (Nat.le_of_not_lt hlen)
    have hlt := LittleEndian.value_lt (c.rest.take width)
    have henc := LittleEndian.encode_value (c.rest.take width)
    rw [hl] at hlt henc
    refine ⟨hlt, ?_, rfl⟩
    rw [henc]
    exact (List.take_append_drop width c.rest).symm

theorem finds_byte : Finds byte fun b => [b] := by
  intro c c' a h
  rw [start_byte] at h
  rcases c with ⟨pos, _ | ⟨b, rest⟩⟩
  · cases h
  · cases h
    exact ⟨rfl, rfl⟩

theorem finds_word16 : Finds word16 LittleEndian.ofUInt16 := by
  intro c c' a h
  obtain ⟨n, c₁, hn, hp⟩ := start_bind_eq_ok.mp h
  obtain ⟨rfl, rfl⟩ := start_pure_eq_ok.mp hp
  obtain ⟨hlt, hrest, hpos⟩ := start_number_eq_ok hn
  have hto : (UInt16.ofNat n).toNat = n := UInt16.toNat_ofNat_of_lt' hlt
  simp only [LittleEndian.ofUInt16, hto, LittleEndian.length_encode]
  exact ⟨hrest, hpos⟩

theorem finds_word32 : Finds word32 LittleEndian.ofUInt32 := by
  intro c c' a h
  obtain ⟨n, c₁, hn, hp⟩ := start_bind_eq_ok.mp h
  obtain ⟨rfl, rfl⟩ := start_pure_eq_ok.mp hp
  obtain ⟨hlt, hrest, hpos⟩ := start_number_eq_ok hn
  have hto : (UInt32.ofNat n).toNat = n := UInt32.toNat_ofNat_of_lt' hlt
  simp only [LittleEndian.ofUInt32, hto, LittleEndian.length_encode]
  exact ⟨hrest, hpos⟩

theorem finds_word64 : Finds word64 LittleEndian.ofUInt64 := by
  intro c c' a h
  obtain ⟨n, c₁, hn, hp⟩ := start_bind_eq_ok.mp h
  obtain ⟨rfl, rfl⟩ := start_pure_eq_ok.mp hp
  obtain ⟨hlt, hrest, hpos⟩ := start_number_eq_ok hn
  have hto : (UInt64.ofNat n).toNat = n := UInt64.toNat_ofNat_of_lt' hlt
  simp only [LittleEndian.ofUInt64, hto, LittleEndian.length_encode]
  exact ⟨hrest, hpos⟩

/-- A reader that only renames what another one finds. -/
theorem Finds.map {r : Reader α} {bytesOf : α → List UInt8} (hr : Finds r bytesOf) {g : α → β}
    {bytesOf' : β → List UInt8} (hg : ∀ a, bytesOf' (g a) = bytesOf a) :
    Finds (r >>= fun a => Pure.pure (g a)) bytesOf' := by
  intro c c' b h
  obtain ⟨a, c₁, ha, hp⟩ := start_bind_eq_ok.mp h
  obtain ⟨rfl, rfl⟩ := start_pure_eq_ok.mp hp
  rw [hg]
  exact hr ha

theorem finds_int8 : Finds int8 fun i => [i.toUInt8] :=
  finds_byte.map (g := UInt8.toInt8) fun _ => rfl

theorem finds_int32 : Finds int32 LittleEndian.ofInt32 :=
  finds_word32.map (g := UInt32.toInt32) fun _ => rfl

theorem finds_int64 : Finds int64 LittleEndian.ofInt64 :=
  finds_word64.map (g := UInt64.toInt64) fun _ => rfl

theorem finds_timesAfter {r : Reader α} {bytesOf : α → List UInt8} (hr : Finds r bytesOf)
    (n : Nat) : ∀ {done items : List α} {c c' : Cursor},
      (timesAfter r n done).start c = (.ok items, c') →
      ∃ found, items = done.reverse ++ found ∧ found.length = n ∧
        c.rest = found.flatMap bytesOf ++ c'.rest ∧
        c'.pos = c.pos + (found.flatMap bytesOf).length := by
  induction n with
  | zero =>
    intro done items c c' h
    obtain ⟨rfl, rfl⟩ := start_pure_eq_ok.mp h
    exact ⟨[], by simp⟩
  | succ n ih =>
    intro done items c c' h
    obtain ⟨a, c₁, ha, hrest⟩ := start_bind_eq_ok.mp h
    obtain ⟨found, hitems, hlen, hbytes, hpos⟩ := ih hrest
    obtain ⟨hc, hc₁⟩ := hr ha
    refine ⟨a :: found, by simpa using hitems, by simp [hlen], ?_, ?_⟩
    · rw [hc, hbytes, List.flatMap_cons, List.append_assoc]
    · rw [hpos, hc₁, List.flatMap_cons, List.length_append, Nat.add_assoc]

theorem finds_times {r : Reader α} {bytesOf : α → List UInt8} (hr : Finds r bytesOf)
    {n : Nat} {items : List α} {c c' : Cursor} (h : (times n r).start c = (.ok items, c')) :
    items.length = n ∧ c.rest = items.flatMap bytesOf ++ c'.rest ∧
      c'.pos = c.pos + (items.flatMap bytesOf).length := by
  obtain ⟨found, rfl, hlen, hbytes, hpos⟩ := finds_timesAfter hr n h
  exact ⟨by simpa using hlen, by simpa using hbytes, by simpa using hpos⟩

end Reader

end CilProbe
