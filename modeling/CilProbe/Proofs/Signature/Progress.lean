/-
CilProbe/Proofs/Signature/Progress.lean

What the readers of signatures make of so many bytes.  Every type that is answered starts with a
byte of its own, so there are no more types in an answer than bytes behind which the reader
stands, and none of them lies deeper than the levels that it was given (`TypeSig.moves_levels`).
Counts do not enter into it: a loop that is told to read many types reads a byte at least for
each of them, and so does a parameter list for each of the marks in it.
-/
import CilProbe.Proofs.Bytes.Moves
import CilProbe.Proofs.Signature.RoundTrip

namespace CilProbe

open Reader

namespace TypeSig

/-! ### Sizes -/

mutual

/-- How many types there are in a type, itself among them. -/
def nodes : TypeSig → Nat
  | .pointer t | .byRef t | .vector t | .pinned t => nodes t + 1
  | .array element _ _ _ => nodes element + 1
  | .modified _ _ inner => nodes inner + 1
  | .instance_ _ _ args => nodesAll args + 1
  | .function _ _ ret params => nodes ret + nodesAll params + 1
  | _ => 1

/-- How many types there are in the types of a list, these among them. -/
def nodesAll : List TypeSig → Nat
  | [] => 0
  | t :: ts => nodes t + nodesAll ts

end

theorem one_le_nodes (t : TypeSig) : 1 ≤ t.nodes := by
  cases t <;> simp [nodes]

theorem nodesAll_append (ts us : List TypeSig) :
    nodesAll (ts ++ us) = nodesAll ts + nodesAll us := by
  induction ts with
  | nil => rw [List.nil_append, nodesAll, Nat.zero_add]
  | cons t ts ih => rw [List.cons_append, nodesAll, nodesAll, ih, Nat.add_assoc]

theorem nodesAll_reverse (ts : List TypeSig) : nodesAll ts.reverse = nodesAll ts := by
  induction ts with
  | nil => rfl
  | cons t ts ih =>
    rw [List.reverse_cons, nodesAll_append, ih, nodesAll, nodesAll, nodesAll, Nat.add_zero,
      Nat.add_comm]

theorem depthAll_le_iff {ts : List TypeSig} {levels : Nat} :
    depthAll ts ≤ levels ↔ ∀ t ∈ ts, t.depth < levels := by
  induction ts with
  | nil => simp [depthAll]
  | cons t ts ih => rw [depthAll, Nat.max_le, ih, List.forall_mem_cons, Nat.succ_le_iff]

/-- A type takes no more bytes than `n` and no more levels than `levels`. -/
structure Fits (levels n : Nat) (t : TypeSig) : Prop where
  nodes_le : t.nodes ≤ n
  depth_lt : t.depth < levels

/-- So do the types of a list together. -/
structure FitAll (levels n : Nat) (ts : List TypeSig) : Prop where
  nodesAll_le : nodesAll ts ≤ n
  depthAll_le : depthAll ts ≤ levels

variable {levels n m : Nat} {t : TypeSig} {ts : List TypeSig}

theorem Fits.pos (h : Fits levels n t) : 1 ≤ n := Nat.le_trans t.one_le_nodes h.nodes_le

theorem FitAll.nil (levels : Nat) : FitAll levels 0 [] := ⟨Nat.le_refl 0, Nat.zero_le levels⟩

theorem FitAll.cons (hts : FitAll levels n ts) (ht : Fits levels m t) :
    FitAll levels (n + m) (t :: ts) := by
  refine ⟨?_, Nat.max_le.mpr ⟨ht.depth_lt, hts.depthAll_le⟩⟩
  rw [nodesAll, Nat.add_comm n]
  exact Nat.add_le_add ht.nodes_le hts.nodesAll_le

theorem FitAll.reverse (hts : FitAll levels n ts) : FitAll levels n ts.reverse := by
  refine ⟨nodesAll_reverse ts ▸ hts.nodesAll_le, depthAll_le_iff.mpr fun t ht => ?_⟩
  exact depthAll_le_iff.mp hts.depthAll_le t (List.mem_reverse.mp ht)

/-! ### Lists -/

variable {read : Reader TypeSig}

/-- Numbers may take as many bytes as they like. -/
theorem moves_numbers : Moves (readNumbers .any) fun _ _ => True := by
  refine Compressed.moves_read.bind fun _ count _ => ?_
  refine (Compressed.moves_read.timesAfter (n := 0) (I := fun _ _ => True) ?_ count trivial).mono ?_
  · exact fun _ _ _ _ _ _ => trivial
  · exact fun _ _ _ => trivial

theorem moves_instanceKind : Moves readInstanceKind fun _ _ => True := by
  refine Moves.byte.bind fun _ _ _ => ?_
  split
  · exact .pure trivial
  split
  · exact .pure trivial
  · exact .throw _

theorem moves_times (hread : Moves read (Fits levels)) (count : Nat) :
    Moves (Reader.times count read) (FitAll levels) := by
  refine (hread.timesAfter (I := FitAll levels) ?_ count (.nil levels)).mono fun m ts h => ?_
  · exact fun n m done t hdone ht => hdone.cons ht
  · rw [Nat.zero_add] at h
    exact List.reverse_reverse ts ▸ h.reverse

/-- A mark in a list takes a byte as the parameters do. -/
theorem moves_paramsAfter (hread : Moves read (Fits levels)) (fuel : Nat) :
    ∀ {missing n : Nat} {done : List TypeSig}, FitAll levels n done →
      Moves (paramsAfter read fuel missing done) fun m ts => FitAll levels (n + m) ts := by
  induction fuel with
  | zero =>
    intro missing n done hdone
    cases missing with
    | zero => exact .pure hdone.reverse
    | succ missing => exact .throw _
  | succ fuel ih =>
    intro missing n done hdone
    cases missing with
    | zero => exact .pure hdone.reverse
    | succ missing =>
      refine hread.bind fun m t ht => ?_
      refine (ih (hdone.cons ht)).mono fun k ts hts => ?_
      rwa [← Nat.add_assoc]

theorem moves_readParams (hread : Moves read (Fits levels)) (count : Nat) :
    Moves (readParams read count) (FitAll levels) := by
  refine Moves.get.bind fun n c hn => ?_
  subst hn
  exact moves_paramsAfter hread c.remaining (.nil levels)

end TypeSig

/-! ### Method signatures -/

namespace MethodSig

/-- How many types there are in a signature. -/
def nodes (s : MethodSig) : Nat := s.ret.nodes + TypeSig.nodesAll s.params

/-- A signature takes no more bytes than `n` and no more levels than `levels`. -/
structure Fits (levels n : Nat) (s : MethodSig) : Prop where
  nodes_le : s.nodes ≤ n
  depth_le : s.depth ≤ levels

variable {levels n : Nat} {s : MethodSig} {read : Reader TypeSig}

theorem Fits.pos (h : s.Fits levels n) : 1 ≤ n :=
  Nat.le_trans (Nat.le_add_right_of_le s.ret.one_le_nodes) h.nodes_le

theorem moves_generics (convention : UInt8) :
    Moves (readGenerics .any convention) fun _ _ => True := by
  unfold readGenerics
  split
  · exact Compressed.moves_read.mono fun _ _ _ => trivial
  · exact .pure trivial

theorem moves_readWith (hread : Moves read (TypeSig.Fits levels)) :
    Moves (readWith .any read) (Fits levels) := by
  rw [readWith_eq]
  refine Moves.byte.bind fun n convention hn => ?_
  split
  · exact .throw _
  refine (moves_generics convention).bind fun m generics _ => ?_
  refine Compressed.moves_read.bind fun k count _ => ?_
  refine hread.bind fun n₁ ret hret => ?_
  refine (TypeSig.moves_readParams hread count).bind_pure fun n₂ params hparams => ?_
  have hret_le := hret.nodes_le
  have hparams_le := hparams.nodesAll_le
  refine ⟨?_, Nat.max_le.mpr ⟨hret.depth_lt, hparams.depthAll_le⟩⟩
  show ret.nodes + TypeSig.nodesAll params ≤ _
  omega

end MethodSig

/-! ### Types -/

namespace TypeSig

variable {levels : Nat}

/-- What follows the byte that a type starts with makes one more type of the types in it, one
level above them; a function's signature is a level of its own. -/
theorem moves_after (hinner : Moves (readLevels .any levels) (Fits levels))
    (hdeeper : Moves (readLevels .any (levels - 1)) (Fits (levels - 1))) (l : Lead) :
    Moves (readAfter .any (readLevels .any levels) (readLevels .any (levels - 1)) l)
      fun n t => Fits (levels + 1) (n + 1) t := by
  -- a type without types in it
  have hplain : ∀ {t : TypeSig} (n : Nat), t.nodes = 1 → t.depth = 0 →
      Fits (levels + 1) (n + 1) t :=
    fun n hnodes hdepth => ⟨by omega, by omega⟩
  -- a type around another one, which was read among more
  have haround : ∀ {t inner : TypeSig} {m : Nat} (n : Nat), Fits levels m inner → m ≤ n →
      t.nodes = inner.nodes + 1 → t.depth = inner.depth + 1 → Fits (levels + 1) (n + 1) t := by
    intro t inner m n hfits hle hnodes hdepth
    have := hfits.nodes_le
    have := hfits.depth_lt
    exact ⟨by omega, by omega⟩
  cases l with
  | pointer | byRef | vector | pinned =>
    exact hinner.bind_pure fun n t ht => haround n ht (Nat.le_refl n) rfl rfl
  | valueType | classType =>
    exact Compressed.moves_readToken.bind_pure fun n _ _ => hplain n rfl rfl
  | typeVar | methodVar => exact Compressed.moves_read.bind_pure fun n _ _ => hplain n rfl rfl
  | sentinel => exact .pure (hplain 0 rfl rfl)
  | array =>
    refine hinner.bind fun n element helement => ?_
    refine Compressed.moves_read.bind fun m rank _ => ?_
    refine moves_numbers.bind fun k sizes _ => ?_
    refine moves_numbers.bind_pure fun j lowerBounds _ => ?_
    exact haround _ helement (Nat.le_add_right n _) rfl rfl
  | instance_ =>
    refine moves_instanceKind.bind fun n isValueType _ => ?_
    refine Compressed.moves_readToken.bind fun m generic _ => ?_
    refine Compressed.moves_read.bind fun k count _ => ?_
    refine (moves_times hinner count).bind_pure fun j args hargs => ?_
    have := hargs.nodesAll_le
    refine ⟨?_, Nat.lt_succ_of_le hargs.depthAll_le⟩
    rw [nodes]
    omega
  | function =>
    refine (MethodSig.moves_readWith hdeeper).bind_pure fun n s hs => ?_
    have hnodes := hs.nodes_le
    have hdepth := hs.depth_le
    unfold MethodSig.nodes at hnodes
    unfold MethodSig.depth at hdepth
    refine ⟨?_, ?_⟩
    · rw [nodes]
      omega
    · rw [depth]
      omega
  | modified required =>
    refine Compressed.moves_readToken.bind fun n modifier _ => ?_
    exact hinner.bind_pure fun m t ht => haround _ ht (Nat.le_add_left m n) rfl rfl

/-- A type that is read takes as many bytes as there are types in it, or more, and no more levels
than there are. -/
theorem moves_levels (levels : Nat) : Moves (readLevels .any levels) (Fits levels) := by
  -- the types of a function's signature are two levels down
  induction levels using Nat.strongRecOn with
  | ind levels ih =>
    cases levels with
    | zero => exact .throw _
    | succ levels =>
      rw [readLevels_succ]
      refine Moves.byte.bind fun n b hn => ?_
      subst hn
      unfold readFrom
      cases Primitive.ofCode? b with
      | some p => exact .pure ⟨Nat.le_refl 1, Nat.succ_pos levels⟩
      | none =>
        cases Lead.ofCode? b with
        | some l =>
          refine (moves_after (ih levels (by omega)) (ih (levels - 1) (by omega)) l).mono ?_
          intro m t ht
          rwa [Nat.add_comm 1]
        | none => exact .throw _

end TypeSig

end CilProbe
