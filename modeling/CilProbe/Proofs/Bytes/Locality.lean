/-
CilProbe/Proofs/Bytes/Locality.lean

Readers look at nothing but the bytes they pass.  `Local least r` says that wherever `r`
answered, the bytes between the two ends of its reading, of which there are at least `least`,
are read as the same answer at any other place and with anything behind them.  So the bytes of
a part can be taken out of one whole and put into another.
-/
import CilProbe.Proofs.Bytes.Compressed

namespace CilProbe

namespace Reader

variable {α β : Type} {r : Reader α} {f : α → Reader β} {n : Nat}

/-- What a reader answers depends only on the bytes it passes, at least `least` of them. -/
def Local (least : Nat) (r : Reader α) : Prop :=
  ∀ ⦃c c' : Cursor⦄ ⦃a : α⦄, r.start c = (.ok a, c') →
    ∃ bytes, least ≤ bytes.length ∧ c.rest = bytes ++ c'.rest ∧ ∀ pos, ReadsAt r pos bytes a

/-- A reading from one place to another moves on by the bytes in between. -/
theorem ReadsAt.pos_eq {bytes : List UInt8} {c c' : Cursor} {a : α}
    (h : ReadsAt r c.pos bytes a) (hrest : c.rest = bytes ++ c'.rest)
    (hrun : r.start c = (.ok a, c')) : c'.pos = c.pos + bytes.length := by
  have hsame := h c'.rest
  rw [← hrest] at hsame
  exact congrArg Cursor.pos (Prod.mk.inj (hrun.symm.trans hsame)).2

namespace Local

theorem pure (a : α) : Local 0 (Pure.pure a) := by
  intro c c' a' h
  obtain ⟨rfl, rfl⟩ := start_pure_eq_ok.mp h
  exact ⟨[], Nat.le_refl 0, rfl, fun pos => ReadsAt.pure pos a⟩

theorem throw (e : Error) : Local n (MonadExcept.throw e : Reader α) := nofun

theorem byte : Local 1 Reader.byte := by
  intro c c' b h
  obtain ⟨hrest, -⟩ := finds_byte h
  exact ⟨[b], Nat.le_refl 1, hrest, fun pos => ReadsAt.byte pos b⟩

theorem weaken (h : Local n r) : Local 0 r := by
  intro c c' a hrun
  obtain ⟨bytes, -, hbytes⟩ := h hrun
  exact ⟨bytes, Nat.zero_le _, hbytes⟩

/-- Two readers in a row pass at least the bytes that the first one does. -/
theorem bind (hr : Local n r) (hf : ∀ a, Local 0 (f a)) : Local n (r >>= f) := by
  intro c c' b h
  obtain ⟨a, c₁, ha, hb⟩ := start_bind_eq_ok.mp h
  obtain ⟨bytes, hlen, hrest, hreads⟩ := hr ha
  obtain ⟨more, -, hrest', hreads'⟩ := hf a hb
  refine ⟨bytes ++ more, ?_, ?_, fun pos => (hreads pos).bind (hreads' _)⟩
  · rw [List.length_append]
    exact Nat.le_trans hlen (Nat.le_add_right _ _)
  · rw [hrest, hrest', List.append_assoc]

theorem bind_pure (hr : Local n r) (g : α → β) : Local n (r >>= fun a => Pure.pure (g a)) :=
  hr.bind fun a => pure (g a)

theorem timesAfter (hr : Local 0 r) (n : Nat) (done : List α) :
    Local 0 (Reader.timesAfter r n done) := by
  induction n generalizing done with
  | zero => exact pure done.reverse
  | succ n ih => exact hr.bind fun a => ih (a :: done)

theorem times (hr : Local 0 r) (n : Nat) : Local 0 (Reader.times n r) := hr.timesAfter n []

end Local

/-! ### One more -/

/-- Reading one item more is reading it behind the others. -/
theorem timesAfter_succ (r : Reader α) (n : Nat) (done : List α) :
    Reader.timesAfter r (n + 1) done =
      Reader.timesAfter r n done >>= fun as => r >>= fun a => pure (as ++ [a]) := by
  induction n generalizing done with
  | zero =>
    show (r >>= fun a => pure (a :: done).reverse) = _
    simp only [List.reverse_cons]
    exact (pure_bind done.reverse fun as => r >>= fun a => pure (as ++ [a])).symm
  | succ n ih =>
    show (r >>= fun a => Reader.timesAfter r (n + 1) (a :: done)) =
      (r >>= fun a => Reader.timesAfter r n (a :: done)) >>= _
    simp only [ih, bind_assoc]

/-- An item behind others is read as the last one of one more. -/
theorem ReadsAt.times_succ {pos : Nat} {bytes more : List UInt8} {as : List α} {a : α}
    (h : ReadsAt (Reader.times n r) pos bytes as) (ha : ReadsAt r (pos + bytes.length) more a) :
    ReadsAt (Reader.times (n + 1) r) pos (bytes ++ more) (as ++ [a]) := by
  unfold Reader.times
  rw [timesAfter_succ]
  exact h.bind (ha.bind_pure fun a => as ++ [a])

end Reader

open Reader

/-! ### Numbers and tokens -/

namespace Compressed

theorem local_read : Local 0 read := by
  refine Local.byte.weaken.bind fun lead => ?_
  have hbyte : Local 0 Reader.byte := Local.byte.weaken
  split
  · exact .pure _
  split
  · exact hbyte.bind_pure _
  split
  · refine hbyte.bind fun b₂ => ?_
    refine hbyte.bind fun b₁ => ?_
    exact hbyte.bind_pure _
  · exact .throw _

theorem local_readToken : Local 0 readToken := by
  refine local_read.bind fun value => ?_
  split
  · exact .pure _
  · exact .throw _

end Compressed

end CilProbe
