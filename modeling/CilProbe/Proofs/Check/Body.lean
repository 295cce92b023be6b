/-
CilProbe/Proofs/Check/Body.lean

What the check of a whole body comes to, once the body can be read: the check of its
shape, and with call sites also the check of its stack against the declared depth.
-/
import CilProbe.Check.Body
import CilProbe.Proofs.Check.Structure

namespace CilProbe

namespace Check

theorem readable_eq_ok {α : Type} {result : Except Error α} {a : α} :
    readable result = .ok a ↔ result = .ok a := by
  rcases result with e | b <;> simp [readable, reject]

/-- The check of a body without call sites reads it and checks its shape. -/
theorem checkBody_none {data : List UInt8} {body : MethodBody} {bytes : List UInt8}
    {code : List (Instruction Offset)} (hbody : MethodBody.read data = .ok body)
    (hbytes : body.code data = .ok bytes) (hcode : decode bytes = .ok code) (returnsValue : Bool) :
    checkBody data returnsValue none =
      (checkStructure code (.ofNat bytes.length) body.clauses).map fun _ => none := by
  unfold checkBody readable
  rw [hbody]
  simp only [bind, Except.bind]
  rw [hbytes]
  simp only
  rw [hcode]
  simp only
  rcases checkStructure code (UInt32.ofNat bytes.length) body.clauses with e | _ <;> rfl

/-- With or without them, it accepts only what has the right shape. -/
theorem checkStructure_of_checkBody {data : List UInt8} {body : MethodBody} {bytes : List UInt8}
    {code : List (Instruction Offset)} (hbody : MethodBody.read data = .ok body)
    (hbytes : body.code data = .ok bytes) (hcode : decode bytes = .ok code) {returnsValue : Bool}
    {callSites : Option CallSites} {report : Option StackReport}
    (h : checkBody data returnsValue callSites = .ok report) :
    checkStructure code (.ofNat bytes.length) body.clauses = .ok () := by
  obtain ⟨body', hbody', h⟩ := bind_eq_ok.mp h
  obtain ⟨bytes', hbytes', h⟩ := bind_eq_ok.mp h
  obtain ⟨code', hcode', h⟩ := bind_eq_ok.mp h
  obtain ⟨⟨⟩, hstructure, -⟩ := bind_eq_ok.mp h
  obtain rfl := Except.ok.inj (hbody.symm.trans (readable_eq_ok.mp hbody'))
  obtain rfl := Except.ok.inj (hbytes.symm.trans (readable_eq_ok.mp hbytes'))
  obtain rfl := Except.ok.inj (hcode.symm.trans (readable_eq_ok.mp hcode'))
  exact hstructure

/-- With call sites it checks the stack as well, and compares the largest depth. -/
theorem checkBody_some_eq_ok {data : List UInt8} {returnsValue : Bool} {callSites : CallSites}
    {report : StackReport} :
    checkBody data returnsValue (some callSites) = .ok (some report) ↔
      ∃ body bytes code, MethodBody.read data = .ok body ∧ body.code data = .ok bytes ∧
        decode bytes = .ok code ∧
        checkStructure code (.ofNat bytes.length) body.clauses = .ok () ∧
        simulateStack code body.clauses returnsValue callSites = .ok report ∧
        report.maxDepth ≤ body.maxStack := by
  unfold checkBody
  simp only [bind_eq_ok, readable_eq_ok]
  constructor
  · rintro ⟨body, hbody, bytes, hbytes, code, hcode, ⟨⟩, hstructure, report', hreport, ⟨⟩, hle, h⟩
    obtain rfl := Option.some.inj (pure_eq_ok.mp h)
    exact ⟨body, bytes, code, hbody, hbytes, hcode, hstructure, hreport,
      of_decide_eq_true (require_eq_ok.mp hle)⟩
  · rintro ⟨body, bytes, code, hbody, hbytes, hcode, hstructure, hreport, hle⟩
    exact ⟨body, hbody, bytes, hbytes, code, hcode, (), hstructure, report, hreport, (),
      require_eq_ok.mpr (decide_eq_true hle), rfl⟩

end Check

end CilProbe
