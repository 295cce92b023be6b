/-
CilProbe/Proofs/Bytes/Writing.lean

Writers and readers side by side.  What is written piece by piece is read back piece
by piece: `Reads r w a` says that everything in `w` could be written, and that `r`
turns it into `a` wherever it stands and whatever follows.  In the other direction,
`Spans c c' w` says that a cursor which moved from `c` to `c'` passed just what `w`
writes.  Both go along with `++`, so a codec is verified one piece at a time, in the
order of the format.  `Refines r r'` compares two readers of one format, of which the
first may fail more often.
-/
import CilProbe.Bytes.Written
import CilProbe.Proofs.Bytes.Reading

namespace CilProbe

namespace Written

/-! ### Laws of writing -/

theorem append_def (a b : Written) :
    a ++ b = if a.failure.isSome then a else ⟨a.bytes ++ b.bytes, b.failure⟩ := rfl

@[simp] theorem ok_append (bytes : List UInt8) (w : Written) :
    ok bytes ++ w = ⟨bytes ++ w.bytes, w.failure⟩ := rfl

@[simp] theorem append_nil (w : Written) : w ++ ok [] = w := by
  rcases w with ⟨bytes, _ | e⟩
  · simp [append_def, ok]
  · simp [append_def]

/-- Nothing is written after a failure, wherever the brackets are. -/
theorem append_assoc (a b c : Written) : a ++ b ++ c = a ++ (b ++ c) := by
  rcases a with ⟨as, _ | e⟩
  · rcases b with ⟨bs, _ | e⟩
    · simp [append_def, List.append_assoc]
    · simp [append_def]
  · simp [append_def]

/-- What was written stays, whatever comes behind it. -/
theorem bytes_append_ne_nil {a : Written} (h : a.bytes ≠ []) (b : Written) :
    (a ++ b).bytes ≠ [] := by
  rw [append_def]
  split
  · exact h
  · exact List.append_ne_nil_of_left_ne_nil h b.bytes

theorem toExcept_eq_ok {w : Written} {bytes : List UInt8} :
    w.toExcept = .ok bytes ↔ w = ok bytes := by
  rcases w with ⟨bs, _ | e⟩
  · simp [toExcept, ok]
  · simp [toExcept, ok]

/-- Items written one after the other. -/
def each {α : Type} (write : α → Written) (items : List α) : Written :=
  items.foldr (fun a rest => write a ++ rest) (ok [])

@[simp] theorem each_nil {α : Type} (write : α → Written) : each write [] = ok [] := rfl

@[simp] theorem each_cons {α : Type} (write : α → Written) (a : α) (items : List α) :
    each write (a :: items) = write a ++ each write items := rfl

end Written

namespace Reader

variable {α β : Type} {r : Reader α} {f : α → Reader β} {w v : Written} {a : α} {b : β}

/-! ### Reading back what was written -/

/-- Everything is written, and is read as `a` wherever it stands. -/
def Reads (r : Reader α) (w : Written) (a : α) : Prop :=
  ∃ bytes, w = .ok bytes ∧ ∀ pos, ReadsAt r pos bytes a

namespace Reads

theorem pure (a : α) : Reads (Pure.pure a) (.ok []) a :=
  ⟨[], rfl, fun pos => ReadsAt.pure pos a⟩

theorem byte (b : UInt8) : Reads Reader.byte (.ok [b]) b :=
  ⟨[b], rfl, fun pos => ReadsAt.byte pos b⟩

/-- Two pieces in a row. -/
theorem bind (hr : Reads r w a) (hf : Reads (f a) v b) : Reads (r >>= f) (w ++ v) b := by
  obtain ⟨bytes, rfl, hr⟩ := hr
  obtain ⟨more, rfl, hf⟩ := hf
  exact ⟨bytes ++ more, rfl, fun pos => (hr pos).bind (hf _)⟩

theorem bind_pure (hr : Reads r w a) (g : α → β) :
    Reads (r >>= fun a => Pure.pure (g a)) w (g a) := by
  have h := hr.bind (f := fun a => Pure.pure (g a)) (pure (g a))
  rwa [Written.append_nil] at h

/-- A piece of which nothing is written. -/
theorem bind_nil (hr : Reads r (.ok []) a) (hf : Reads (f a) w b) : Reads (r >>= f) w b :=
  hr.bind hf

theorem timesAfter {write : α → Written} (items done : List α)
    (h : ∀ a ∈ items, Reads r (write a) a) :
    Reads (Reader.timesAfter r items.length done) (.each write items) (done.reverse ++ items) := by
  induction items generalizing done with
  | nil =>
    rw [List.append_nil]
    exact pure done.reverse
  | cons a items ih =>
    have htail := ih (a :: done) fun b hb => h b (by simp [hb])
    rw [List.reverse_cons, List.append_assoc] at htail
    exact (h a (by simp)).bind htail

/-- Items one after the other, as many as there are. -/
theorem times {write : α → Written} {items : List α} (h : ∀ a ∈ items, Reads r (write a) a) :
    Reads (Reader.times items.length r) (.each write items) items :=
  timesAfter items [] h

/-- The bytes written are read from any cursor that they stand at. -/
theorem start (h : Reads r w a) : ∃ bytes, w.toExcept = .ok bytes ∧
    ∀ pos rest, r.start ⟨pos, bytes ++ rest⟩ = (.ok a, ⟨pos + bytes.length, rest⟩) := by
  obtain ⟨bytes, rfl, h⟩ := h
  exact ⟨bytes, rfl, fun pos rest => h pos rest⟩

end Reads

/-! ### Writing what was read -/

/-- Between the two cursors stands just what `w` writes. -/
def Spans (c c' : Cursor) (w : Written) : Prop :=
  ∃ bytes, w = .ok bytes ∧ c.rest = bytes ++ c'.rest ∧ c'.pos = c.pos + bytes.length

namespace Spans

variable {c c₁ c' : Cursor}

theorem nil (c : Cursor) : Spans c c (.ok []) := ⟨[], rfl, rfl, rfl⟩

theorem trans (h : Spans c c₁ w) (h' : Spans c₁ c' v) : Spans c c' (w ++ v) := by
  obtain ⟨bytes, rfl, hrest, hpos⟩ := h
  obtain ⟨more, rfl, hrest', hpos'⟩ := h'
  refine ⟨bytes ++ more, rfl, ?_, ?_⟩
  · rw [hrest, hrest', List.append_assoc]
  · rw [hpos', hpos, List.length_append, Nat.add_assoc]

theorem byte {b : UInt8} (h : Reader.byte.start c = (.ok b, c')) : Spans c c' (.ok [b]) :=
  ⟨[b], rfl, finds_byte h⟩

end Spans

/-- What a reader answers with, written anew, is what it read. -/
def Rewrites (r : Reader α) (write : α → Written) : Prop :=
  ∀ ⦃c c' : Cursor⦄ ⦃a : α⦄, r.start c = (.ok a, c') → Spans c c' (write a)

theorem Rewrites.timesAfter {write : α → Written} (h : Rewrites r write) (n : Nat) :
    ∀ {done items : List α} {c c' : Cursor},
      (Reader.timesAfter r n done).start c = (.ok items, c') →
      ∃ more, items = done.reverse ++ more ∧ more.length = n ∧ Spans c c' (.each write more) := by
  induction n with
  | zero =>
    intro done items c c' hrun
    obtain ⟨rfl, rfl⟩ := start_pure_eq_ok.mp hrun
    exact ⟨[], by simp, rfl, .nil c⟩
  | succ n ih =>
    intro done items c c' hrun
    obtain ⟨a, c₁, ha, hrest⟩ := start_bind_eq_ok.mp hrun
    obtain ⟨more, rfl, rfl, hspan⟩ := ih hrest
    exact ⟨a :: more, by simp, rfl, (h ha).trans hspan⟩

theorem Rewrites.times {write : α → Written} (h : Rewrites r write) {n : Nat} {items : List α}
    {c c' : Cursor} (hrun : (Reader.times n r).start c = (.ok items, c')) :
    items.length = n ∧ Spans c c' (.each write items) := by
  obtain ⟨more, rfl, hlen, hspan⟩ := h.timesAfter n hrun
  exact ⟨by simpa using hlen, by simpa using hspan⟩

/-! ### Readers that fail more often -/

/-- Where `r` answers, `r'` gives the same answer and stops at the same place. -/
def Refines (r r' : Reader α) : Prop :=
  ∀ ⦃c c' : Cursor⦄ ⦃a : α⦄, r.start c = (.ok a, c') → r'.start c = (.ok a, c')

namespace Refines

variable {r' : Reader α} {f' : α → Reader β}

theorem refl (r : Reader α) : Refines r r := fun _ _ _ h => h

theorem bind (hr : Refines r r') (hf : ∀ a, Refines (f a) (f' a)) :
    Refines (r >>= f) (r' >>= f') := by
  intro c c' b h
  obtain ⟨a, c₁, ha, hb⟩ := start_bind_eq_ok.mp h
  exact start_bind_eq_ok.mpr ⟨a, c₁, hr ha, hf a hb⟩

/-- Two readers that go on in the same way. -/
theorem bind_same (hr : Refines r r') (f : α → Reader β) : Refines (r >>= f) (r' >>= f) :=
  hr.bind fun a => refl (f a)

theorem timesAfter (hr : Refines r r') (n : Nat) (done : List α) :
    Refines (Reader.timesAfter r n done) (Reader.timesAfter r' n done) := by
  induction n generalizing done with
  | zero => exact refl _
  | succ n ih => exact hr.bind fun a => ih (a :: done)

theorem times (hr : Refines r r') (n : Nat) : Refines (Reader.times n r) (Reader.times n r') :=
  hr.timesAfter n []

end Refines

end Reader

end CilProbe
