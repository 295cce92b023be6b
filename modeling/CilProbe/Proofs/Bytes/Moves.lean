/-
CilProbe/Proofs/Bytes/Moves.lean

How far readers move.  `Moves r Q` says of a reader that it stays inside its bytes, with an answer
or with an error, and that `Q n a` holds of every answer `a` and the number `n` of bytes behind
which it stands.  It composes along `>>=`, where the numbers add up (`Moves.bind`), so what a
reader of a whole spends is what the readers of its parts spend.  A loop keeps an invariant of the
bytes spent and the items that there are (`Moves.timesAfter`).
-/
import CilProbe.Proofs.Bytes.Compressed

namespace CilProbe

/-! ### Moving on -/

namespace Cursor

theorem advance_advance (c : Cursor) (m n : Nat) : (c.advance m).advance n = c.advance (m + n) := by
  unfold advance
  rw [List.drop_drop, Nat.add_assoc]

theorem length_rest_advance (c : Cursor) (n : Nat) :
    (c.advance n).rest.length = c.rest.length - n := List.length_drop

end Cursor

namespace Reader

variable {α β : Type} {r : Reader α} {f : α → Reader β} {P : Nat → α → Prop} {Q : Nat → β → Prop}

/-- The reader moves on by a number of bytes that are there, and this number and its answer, if it
answers, are such that `Q`. -/
def Moves (r : Reader α) (Q : Nat → α → Prop) : Prop :=
  ∀ c : Cursor, ∃ n x, n ≤ c.rest.length ∧ r.start c = (x, c.advance n) ∧ ∀ a, x = .ok a → Q n a

namespace Moves

theorem pure {a : α} (h : P 0 a) : Moves (Pure.pure a) P := fun _ =>
  ⟨0, .ok a, Nat.zero_le _, rfl, fun _ heq => Except.ok.inj heq ▸ h⟩

theorem throw (e : Error) : Moves (MonadExcept.throw e) P := fun _ =>
  ⟨0, .error e, Nat.zero_le _, rfl, nofun⟩

theorem byte : Moves Reader.byte fun n _ => n = 1 := by
  rintro ⟨pos, - | ⟨b, rest⟩⟩
  · exact ⟨0, .error .outOfBounds, Nat.zero_le _, rfl, nofun⟩
  · exact ⟨1, .ok b, Nat.succ_le_succ (Nat.zero_le _), rfl, fun _ _ => rfl⟩

theorem get : Moves MonadState.get fun n _ => n = 0 := fun c =>
  ⟨0, .ok c, Nat.zero_le _, rfl, fun _ _ => rfl⟩

theorem position : Moves Reader.position fun n _ => n = 0 := fun c =>
  ⟨0, .ok c.pos, Nat.zero_le _, rfl, fun _ _ => rfl⟩

theorem mono {P' : Nat → α → Prop} (h : Moves r P) (himp : ∀ n a, P n a → P' n a) :
    Moves r P' := by
  intro c
  obtain ⟨n, x, hn, hrun, hx⟩ := h c
  exact ⟨n, x, hn, hrun, fun a ha => himp n a (hx a ha)⟩

/-- Two readers in a row move on by the sum of what each of them does. -/
theorem bind (hr : Moves r P) (hf : ∀ n a, P n a → Moves (f a) fun m b => Q (n + m) b) :
    Moves (r >>= f) Q := by
  intro c
  obtain ⟨n, x, hn, hrun, hx⟩ := hr c
  rw [start_bind, hrun]
  cases x with
  | error e => exact ⟨n, .error e, hn, rfl, nofun⟩
  | ok a =>
    obtain ⟨m, y, hm, hrun', hy⟩ := hf n a (hx a rfl) (c.advance n)
    rw [Cursor.length_rest_advance] at hm
    rw [Cursor.advance_advance] at hrun'
    exact ⟨n + m, y, by omega, hrun', hy⟩

/-- A last part that reads nothing. -/
theorem bind_pure {g : α → β} (hr : Moves r P) (h : ∀ n a, P n a → Q n (g a)) :
    Moves (r >>= fun a => Pure.pure (g a)) Q :=
  hr.bind fun n a ha => pure (h n a ha)

/-- A loop keeps what each of its items keeps. -/
theorem timesAfter {I : Nat → List α → Prop} (hr : Moves r P)
    (hI : ∀ n m done a, I n done → P m a → I (n + m) (a :: done)) (count : Nat) :
    ∀ {n : Nat} {done : List α}, I n done →
      Moves (Reader.timesAfter r count done) fun m as => I (n + m) as.reverse := by
  induction count with
  | zero =>
    intro n done h
    refine pure ?_
    rw [List.reverse_reverse]
    exact h
  | succ count ih =>
    intro n done h
    refine hr.bind fun m a ha => ?_
    refine (ih (hI n m done a h ha)).mono fun k as hk => ?_
    rwa [← Nat.add_assoc]

end Moves

end Reader

/-! ### Numbers and tokens -/

namespace Compressed

open Reader

theorem moves_read : Moves read fun n _ => 1 ≤ n := by
  refine Moves.byte.bind fun n lead hn => ?_
  subst hn
  split
  · exact .pure (Nat.le_refl 1)
  split
  · exact Moves.byte.bind_pure fun m _ _ => Nat.le_add_right 1 m
  split
  · refine Moves.byte.bind fun m₂ _ _ => ?_
    refine Moves.byte.bind fun m₁ _ _ => ?_
    exact Moves.byte.bind_pure fun m₀ _ _ => Nat.le_add_right 1 _
  · exact .throw _

theorem moves_readToken : Moves readToken fun n _ => 1 ≤ n := by
  refine moves_read.bind fun n value hn => ?_
  split
  · exact .pure hn
  · exact .throw _

end Compressed

end CilProbe
