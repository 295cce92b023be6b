/-
CilProbe/Proofs/Probe/Covering.lean

Which clauses of an instrumented method cover what.  The image of an instruction is
covered by the clauses that covered the instruction and, behind them, by those of the
exit probe; so whatever leaves the method passes the exit probe, after all clauses of
the method (`covering_image`).  Going from one image to another does not leave the range
of the exit probe (`leaving_image`); returning does (`leaving_return`).
-/
import CilProbe.Proofs.Probe.Containment
import CilProbe.Proofs.Probe.Stack

namespace CilProbe

/-! ### The clauses of the exit probe -/

namespace CodeParts

/-- The clause of the catch handler. -/
def exitCatch (c : CodeParts) (type : Token) : Clause :=
  .catch_ (.ofNat c.innerStart) (Offset.distance (.ofNat c.innerStart) (.ofNat c.innerEnd))
    (.ofNat c.innerEnd) (Offset.distance (.ofNat c.innerEnd) (.ofNat c.finallyStart)) type

/-- The clause of the finally handler. -/
def exitFinally (c : CodeParts) : Clause :=
  .finally_ (.ofNat c.innerStart) (Offset.distance (.ofNat c.innerStart) (.ofNat c.finallyStart))
    (.ofNat c.finallyStart) (Offset.distance (.ofNat c.finallyStart) (.ofNat c.epilogueStart))

theorem exitClauses_eq (c : CodeParts) (exceptionType : Option Token) :
    c.exitClauses exceptionType =
      (exceptionType.map c.exitCatch).toList ++ [c.exitFinally] := rfl

end CodeParts

namespace Relocated

variable {body : MethodBody} {code : List (Instruction Offset)} {size : Offset}
  {method enter : Token} {answerSlot : UInt16} {p : ExitPlan} {r : ProbedMethod} {c : CodeParts}
  (h : Relocated body code size method enter answerSlot (some p) r c)
include h

/-! ### What the exit probe covers -/

theorem tryContains_iff_between {cl : Clause} {start stop : Nat}
    (hstart : cl.tryOffset = .ofNat start)
    (hlength : cl.tryLength = Offset.distance (.ofNat start) (.ofNat stop)) (hle : start ≤ stop)
    (hstop : stop ≤ codeEnd 0 c.all) {o : Offset} :
    cl.tryContains o = true ↔ start ≤ o.toNat ∧ o.toNat < stop := by
  have hstart' := h.toNat_ofNat (Nat.le_trans hle hstop)
  have hstop' := h.toNat_ofNat hstop
  have hend : cl.tryEnd = .ofNat stop := by
    rw [Clause.tryEnd, hstart, hlength]
    refine Offset.after_distance (UInt32.le_iff_toNat_le.mpr ?_)
    rwa [hstart', hstop']
  rw [Clause.tryContains_iff, hend, hstart, UInt32.le_iff_toNat_le, UInt32.lt_iff_toNat_lt,
    hstart', hstop']

theorem tryContains_exitCatch (type : Token) {o : Offset} :
    (c.exitCatch type).tryContains o = true ↔ c.innerStart ≤ o.toNat ∧ o.toNat < c.innerEnd := by
  have hle := c.starts_le
  exact h.tryContains_iff_between rfl rfl (by omega) (by omega)

theorem tryContains_exitFinally {o : Offset} :
    c.exitFinally.tryContains o = true ↔ c.innerStart ≤ o.toNat ∧ o.toNat < c.finallyStart := by
  have hle := c.starts_le
  exact h.tryContains_iff_between rfl rfl (by omega) (by omega)

/-- All of the method is covered. -/
theorem tryContains_exitClauses {k : Nat} {i : Instruction Offset} (hi : code[k]? = some i)
    {o : Offset} (ho : InImage c k o) :
    ∀ cl ∈ c.exitClauses p.exceptionType, cl.tryContains o = true := by
  have hle := c.starts_le
  obtain ⟨hlow, hhigh⟩ := h.between_of_inImage hi ho
  rw [c.exitClauses_eq]
  intro cl hcl
  rcases List.mem_append.mp hcl with hcl | hcl
  · obtain ⟨type, -, rfl⟩ := Option.map_eq_some_iff.mp (Option.mem_toList.mp hcl)
    exact (h.tryContains_exitCatch type).mpr ⟨hlow, hhigh⟩
  · obtain rfl := List.mem_singleton.mp hcl
    exact h.tryContains_exitFinally.mpr ⟨hlow, by omega⟩

section Covering

variable (hcont : Contiguous 0 code) (hsize : size.toNat = codeEnd 0 code)
include hcont hsize

/-- The image of an instruction is covered by the clauses that covered the instruction,
and then by those of the exit probe. -/
theorem covering_image {k : Nat} {i : Instruction Offset} (hi : code[k]? = some i) {o : Offset}
    (ho : InImage c k o) :
    (c.clauses body (some p) r).filter (·.tryContains o) =
      (body.clauses.filter (·.tryContains i.offset)).map
          (Clause.moved (r.edge (.ofNat c.innerEnd))) ++ c.exitClauses p.exceptionType := by
  rw [CodeParts.clauses, List.filter_append, List.filter_map]
  congr 1
  · refine congrArg _ (List.filter_congr fun cl hcl => ?_)
    exact h.tryContains_moved hcont hsize hcl hi ho
  · exact List.filter_eq_self.mpr (h.tryContains_exitClauses hi ho)

/-- The catch handler is covered by the finally handler only. -/
theorem covering_catch {o : Offset} (hlow : c.innerEnd ≤ o.toNat)
    (hhigh : o.toNat < c.finallyStart) :
    (c.clauses body (some p) r).filter (·.tryContains o) = [c.exitFinally] := by
  have hle := c.starts_le
  have hcatch : ∀ type, (c.exitCatch type).tryContains o = false := fun type => by
    rw [← Bool.not_eq_true, h.tryContains_exitCatch]
    omega
  have hfinally : c.exitFinally.tryContains o = true :=
    h.tryContains_exitFinally.mpr ⟨by omega, hhigh⟩
  have hold : (body.clauses.map (Clause.moved (r.edge (.ofNat c.innerEnd)))).filter
      (·.tryContains o) = [] := by
    rw [List.filter_map]
    refine List.map_eq_nil_iff.mpr (List.filter_eq_nil_iff.mpr fun cl hcl => ?_)
    rw [Function.comp_apply, h.tryContains_moved_outside hcont hsize hcl (.inr hlow)]
    exact Bool.false_ne_true
  rw [CodeParts.clauses, List.filter_append, hold, List.nil_append, Option.elim_some,
    c.exitClauses_eq]
  rcases p.exceptionType with - | type
  · simp [hfinally]
  · simp [hcatch, hfinally]

/-- The finally handlers on the way from one image to another are those that were on the
way from one instruction to the other. -/
theorem leaving_image {k k' : Nat} {i i' : Instruction Offset} (hi : code[k]? = some i)
    (hi' : code[k']? = some i') {o o' : Offset} (ho : InImage c k o) (ho' : InImage c k' o') :
    ((c.clauses body (some p) r).filter fun cl =>
        cl.flags.finally_ && cl.tryContains o && !cl.tryContains o') =
      (body.clauses.filter fun cl =>
        cl.flags.finally_ && cl.tryContains i.offset && !cl.tryContains i'.offset).map
          (Clause.moved (r.edge (.ofNat c.innerEnd))) := by
  have hexit : ((c.exitClauses p.exceptionType).filter fun cl =>
      cl.flags.finally_ && cl.tryContains o && !cl.tryContains o') = [] := by
    refine List.filter_eq_nil_iff.mpr fun cl hcl => ?_
    rw [h.tryContains_exitClauses hi' ho' cl hcl]
    simp
  rw [CodeParts.clauses, List.filter_append, Option.elim_some, hexit, List.append_nil,
    List.filter_map]
  refine congrArg _ (List.filter_congr fun cl hcl => ?_)
  rw [Function.comp_apply, h.tryContains_moved hcont hsize hcl hi ho,
    h.tryContains_moved hcont hsize hcl hi' ho']
  rfl

/-- On the way from a return to the epilogue there is the finally handler of the exit
probe, and no other if the return was not protected. -/
theorem leaving_return {k : Nat} {i : Instruction Offset} (hi : code[k]? = some i) {o : Offset}
    (ho : InImage c k o) (hfree : ∀ cl ∈ body.clauses, cl.tryContains i.offset = false) :
    ((c.clauses body (some p) r).filter fun cl =>
        cl.flags.finally_ && cl.tryContains o && !cl.tryContains (.ofNat c.epilogueStart)) =
      [c.exitFinally] := by
  have hle := c.starts_le
  have hold : ((body.clauses.map (Clause.moved (r.edge (.ofNat c.innerEnd)))).filter fun cl =>
      cl.flags.finally_ && cl.tryContains o && !cl.tryContains (.ofNat c.epilogueStart)) = [] := by
    rw [List.filter_map]
    refine List.map_eq_nil_iff.mpr (List.filter_eq_nil_iff.mpr fun cl hcl => ?_)
    rw [Function.comp_apply, h.tryContains_moved hcont hsize hcl hi ho, hfree cl hcl]
    simp
  have hfinally : c.exitFinally.tryContains o = true :=
    h.tryContains_exitClauses hi ho _ (by simp [c.exitClauses_eq])
  have hbehind : c.exitFinally.tryContains (.ofNat c.epilogueStart) = false := by
    rw [← Bool.not_eq_true, h.tryContains_exitFinally, h.toNat_ofNat (by omega)]
    omega
  have hflags : c.exitFinally.flags.finally_ = true := rfl
  have hflags' : ∀ type, (c.exitCatch type).flags.finally_ = false := fun _ => rfl
  rw [CodeParts.clauses, List.filter_append, hold, List.nil_append, Option.elim_some,
    c.exitClauses_eq]
  rcases p.exceptionType with - | type
  · simp [hfinally, hbehind, hflags]
  · simp [hfinally, hbehind, hflags, hflags']

end Covering

end Relocated

end CilProbe
