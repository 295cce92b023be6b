/-
CilProbe/Proofs/Probe/Insertion.lean

What it means that a method was instrumented.  `probe` runs in whatever its token
source runs in; here that is a computation with a state of any kind.  If it comes
out with an instrumented method, every part of it succeeded, and what they made of
the method is a `Relocated` body (`instrumented_of_probe`).
-/
import CilProbe.Probe.Insertion
import CilProbe.Proofs.Probe.Relocated
import CilProbe.Proofs.Probe.Wrap

namespace CilProbe

/-! ### What came out -/

/-- The instrumented method that came out, if one did. -/
def ProbeOutcome.method? : Except Error ProbeOutcome → Option ProbedMethod
  | .ok (.probed r) => some r
  | _ => none

theorem ProbeOutcome.eq_of_method? {outcome : Except Error ProbeOutcome} {r : ProbedMethod}
    (h : method? outcome = some r) : outcome = .ok (.probed r) := by
  rcases outcome with e | (r' | -)
  · cases h
  · cases h
    rfl
  · cases h

/-- The exit probe is made with what the request says and the source, in the given
state, answers. -/
structure ExitPlan.Asked {σ : Type} (p : ExitPlan) (source : TokenSource (StateM σ))
    (request : ProbeRequest) (s : σ) : Prop where
  exit : ∃ s₁, (source.exit (p.slots.value.map fun _ => request.signature.ret.unmodified)).run.run
      s = (.ok p.exit, s₁) ∧
    ∀ type ∈ p.exceptionType, ∃ s₂, source.exceptionType.run.run s₁ = (.ok type, s₂)
  observed : p.exceptionType.isSome = request.policy.exception

/-- A method whose body says `code` was instrumented as `r`; the source was in state
`s` before. -/
structure Instrumented {σ : Type} (source : TokenSource (StateM σ)) (s : σ)
    (request : ProbeRequest) (body : MethodBody) (bytes : List UInt8)
    (code : List (Instruction Offset)) (enter : Token) (answerSlot : UInt16)
    (plan : Option ExitPlan) (r : ProbedMethod) (c : CodeParts) : Prop where
  read : request.read = .ok (body, bytes)
  decoded : decode bytes = .ok code
  short : bytes.length ≤ Offset.last
  shape : request.checkShape body code = .ok ()
  asked : ∃ s₁, source.enter.run.run s = (.ok enter, s₁) ∧ ∀ p ∈ plan, p.Asked source request s₁
  planned : plan.isSome = request.policy.exit
  locals : ∃ locals, Locals.parse request.locals = .ok locals ∧
    plan.map ExitPlan.slots = request.exitSlotsAfter locals.count ∧
    answerSlot = .ofNat (locals.count + request.exitSlotCount) ∧
    locals.count + request.exitSlotCount < Locals.slotLimit
  maxStack : r.maxStack = max body.maxStack (Draft.neededStack (plan.map ExitPlan.slots))
  relocated : Relocated body code (.ofNat bytes.length) request.method enter answerSlot plan r c

namespace ProbeRequest

variable {r : ProbeRequest} {body : MethodBody} {bytes : List UInt8}
  {code : List (Instruction Offset)}

theorem read_eq_ok :
    r.read = .ok (body, bytes) ↔
      MethodBody.read r.body = .ok body ∧ body.code r.body = .ok bytes ∧ bytes ≠ [] := by
  unfold read
  simp only [bind_eq_ok]
  constructor
  · rintro ⟨body', hbody, bytes', hbytes, h⟩
    split at h
    · cases h
    · next hne =>
      obtain ⟨rfl, rfl⟩ := Prod.mk.inj (pure_eq_ok.mp h)
      exact ⟨hbody, hbytes, by simpa using hne⟩
  · rintro ⟨hbody, hbytes, hne⟩
    refine ⟨body, hbody, bytes, hbytes, ?_⟩
    rw [if_neg (by simpa using hne)]
    rfl

/-- What is instrumented has a shape that the probes can keep intact. -/
theorem checkShape_eq_ok (h : r.checkShape body code = .ok ()) :
    (∀ c ∈ body.clauses, c.isFilter = false) ∧
      ∀ i ∈ code, i.opcode ≠ Opcode.jmp ∧ i.opcode ≠ Opcode.tail ∧ i.opcode ≠ Opcode.localloc := by
  unfold checkShape at h
  simp only at h
  split at h
  · cases h
  next hfilter =>
  obtain ⟨_, hcode, -⟩ := bind_eq_ok.mp h
  constructor
  · intro c hc
    by_contra hc'
    exact hfilter (List.any_eq_true.mpr ⟨c, hc, by simpa using hc'⟩)
  · intro i hi
    have hi := forM_eq_ok.mp hcode i hi
    unfold checkInstruction at hi
    split at hi
    · cases hi
    · split at hi
      · cases hi
      · split at hi
        · cases hi
        · next h₁ h₂ h₃ => exact ⟨h₁, h₂, h₃⟩

end ProbeRequest

/-- Bytes that say nothing are none. -/
theorem decode_ne_nil {bytes : List UInt8} {code : List (Instruction Offset)}
    (h : decode bytes = .ok code) (hne : bytes ≠ []) : code ≠ [] := by
  rintro rfl
  exact hne (decode_eq_ok_iff.mp h).1

section Probe

variable {σ : Type} {source : TokenSource (StateM σ)} {request : ProbeRequest} {limit : Nat}
  {r : ProbedMethod} {s s' : σ}

theorem exitTokens_eq_ok {slots : ExitSlots} {exit : Token} {exceptionType : Option Token}
    (h : (source.exitTokens request slots).run.run s = (.ok (exit, exceptionType), s')) :
    (ExitPlan.mk slots exit exceptionType).Asked source request s := by
  obtain ⟨exit', s₁, hexit, h⟩ := attempt_bind_eq_ok.mp h
  simp only at h
  rcases hpolicy : request.policy.exception with - | -
  · rw [hpolicy, if_neg (by decide)] at h
    obtain ⟨heq, rfl⟩ := attempt_pure_eq_ok.mp h
    obtain ⟨rfl, rfl⟩ := Prod.mk.inj heq
    exact ⟨⟨s₁, hexit, by simp⟩, by simp [hpolicy]⟩
  · rw [hpolicy, if_pos rfl, map_eq_pure_bind, bind_assoc] at h
    obtain ⟨type, s₂, htype, h⟩ := attempt_bind_eq_ok.mp h
    obtain ⟨heq, rfl⟩ := attempt_pure_eq_ok.mp h
    obtain ⟨rfl, rfl⟩ := Prod.mk.inj heq
    refine ⟨⟨s₁, hexit, fun type' h' => ?_⟩, by simp [hpolicy]⟩
    obtain rfl : type = type' := by simpa using h'
    exact ⟨s₂, htype⟩

theorem wrapExit_keeps {d d' : Draft} {slots : ExitSlots} {exit : Token}
    {exceptionType : Option Token} (h : d.wrapExit slots exit exceptionType = .ok d') :
    d'.answerSlot = d.answerSlot ∧ d'.maxStack = d.maxStack := by
  unfold Draft.wrapExit at h
  obtain ⟨⟨⟨order, clauses⟩, l⟩, -, h⟩ := bind_eq_ok.mp h
  obtain rfl := pure_eq_ok.mp h
  exact ⟨rfl, rfl⟩

/-- What is left to do when the probes are in place: ask for a signature of the locals, and
write the body. -/
theorem closing_eq_ok {d : Draft}
    (h : (do
      let blob ← ExceptT.mk (pure d.locals.encode)
      let token ← source.localSignature blob
      return .probed (← ExceptT.mk (pure (d.finish limit token))) :
        ExceptT Error (StateM σ) ProbeOutcome).run.run s = (.ok (.probed r), s')) :
    ∃ blob token, d.locals.encode = .ok blob ∧
      (source.localSignature blob).run.run s = (.ok token, s') ∧ d.finish limit token = .ok r := by
  obtain ⟨blob, hblob, h⟩ := attempt_mk_bind_eq_ok.mp h
  obtain ⟨token, s₂, htoken, h⟩ := attempt_bind_eq_ok.mp h
  obtain ⟨r', hfinish, h⟩ := attempt_mk_bind_eq_ok.mp h
  obtain ⟨heq, rfl⟩ := attempt_pure_eq_ok.mp h
  cases heq
  exact ⟨blob, token, hblob, htoken, hfinish⟩

/-- What is written when the probes are in place is an instrumented method, with whichever of
them. -/
theorem instrumented_of_finish {body : MethodBody} {bytes : List UInt8}
    {code : List (Instruction Offset)} {enter token : Token} {plan : Option ExitPlan}
    {d d' : Draft} {parts : Draft.Parts} {s₁ : σ} (hread : request.read = .ok (body, bytes))
    (hdecode : decode bytes = .ok code) (hshort : bytes.length ≤ Offset.last)
    (hcheck : request.checkShape body code = .ok ())
    (henter : source.enter.run.run s = (.ok enter, s₁))
    (hasked : ∀ p ∈ plan, p.Asked source request s₁) (hplanned : plan.isSome = request.policy.exit)
    (hopened : Draft.Opened request body code (.ofNat bytes.length) d)
    (hslots : plan.map ExitPlan.slots = d.exitSlots)
    (hshape : Draft.Shape body code (.ofNat bytes.length) request.method enter plan d' parts)
    (hanswer : d'.answerSlot = d.answerSlot) (hstack : d'.maxStack = d.maxStack)
    (hfinish : d'.finish limit token = .ok r) :
    ∃ c, Instrumented source s request body bytes code enter d.answerSlot plan r c := by
  have hcode := decode_ne_nil hdecode (ProbeRequest.read_eq_ok.mp hread).2.2
  obtain ⟨hmax, -, c, hc⟩ :=
    Draft.relocated_of_finish hshape (decode_eq_ok_iff.mp hdecode).2.2 hcode hfinish
  obtain ⟨locals, hlocals, hslots', hanswer', hlimit⟩ := hopened.locals
  refine ⟨c, ?_⟩
  exact {
    read := hread
    decoded := hdecode
    short := hshort
    shape := hcheck
    asked := ⟨s₁, henter, hasked⟩
    planned := hplanned
    locals := ⟨locals, hlocals, hslots.trans hslots', hanswer', hlimit⟩
    maxStack := by rw [hmax, hstack, hopened.maxStack, hslots]
    relocated := hanswer ▸ hc }

/-- If the outcome is an instrumented method, it is what the parts of the library
made of it. -/
theorem instrumented_of_probe
    (h : (probe limit request source).run.run s = (.ok (.probed r), s')) :
    ∃ body bytes code enter answerSlot plan c,
      Instrumented source s request body bytes code enter answerSlot plan r c := by
  unfold probe at h
  obtain ⟨⟨body, bytes⟩, hread, h⟩ := attempt_mk_bind_eq_ok.mp h
  obtain ⟨code, hdecode, h⟩ := attempt_mk_bind_eq_ok.mp h
  obtain ⟨enter, s₁, henter, h⟩ := attempt_bind_eq_ok.mp h
  split at h
  · obtain ⟨heq, -⟩ := attempt_pure_eq_ok.mp h
    cases heq
  obtain ⟨_, hcheck, h⟩ := attempt_mk_bind_eq_ok.mp h
  obtain ⟨d, hopen, h⟩ := attempt_mk_bind_eq_ok.mp h
  obtain ⟨d', hentry, h⟩ := attempt_mk_bind_eq_ok.mp h
  obtain ⟨size, hsize, hopened, -⟩ := Draft.opened_of_ofRequest hopen
  have hshort : bytes.length ≤ Offset.last := by
    rw [← hsize]
    exact Nat.le_of_lt_succ size.toNat_lt
  obtain rfl : size = .ofNat bytes.length := by rw [← hsize, UInt32.ofNat_toNat]
  have hknown : ∀ i ∈ code, i.Known := fun i hi =>
    ((decode_eq_ok_iff.mp hdecode).2.1 i hi).known
  have hd' := Draft.insertEntry_eq_ok hopened.mirrors.count hentry
  have hanswer : d'.answerSlot = d.answerSlot := by rw [hd']
  have hstack : d'.maxStack = d.maxStack := by rw [hd']
  obtain ⟨locals, -, hslots, -⟩ := hopened.locals
  have hexit : d'.exitSlots = request.exitSlotsAfter locals.count := by rw [hd', ← hslots]
  simp only [hexit, ProbeRequest.exitSlotsAfter] at h
  rcases hpolicy : request.policy.exit with - | -
  · -- only the entry probe
    have hnone : d.exitSlots = none := by
      simp [hslots, ProbeRequest.exitSlotsAfter, hpolicy]
    simp only [hpolicy, Bool.false_eq_true, if_false, pure_bind] at h
    obtain ⟨-, token, -, -, hfinish⟩ := closing_eq_ok h
    have hasked : ∀ p ∈ (none : Option ExitPlan), p.Asked source request s₁ := by simp
    obtain ⟨c, hc⟩ := instrumented_of_finish hread hdecode hshort hcheck henter hasked
      hpolicy.symm hopened hnone.symm (Draft.shape_of_entry hopened hknown hentry) hanswer hstack
      hfinish
    exact ⟨body, bytes, code, enter, d.answerSlot, none, c, hc⟩
  · -- around all that, the exit probe
    have hsome : d.exitSlots = some (Draft.slotsAfter locals.count request.returnsValue) := by
      simp [hslots, ProbeRequest.exitSlotsAfter, hpolicy]
    simp only [hpolicy, if_true] at h
    obtain ⟨⟨exit, exceptionType⟩, s₂, htokens, h⟩ := attempt_bind_eq_ok.mp h
    obtain ⟨d'', hwrap, h⟩ := attempt_mk_bind_eq_ok.mp h
    obtain ⟨-, token, -, -, hfinish⟩ := closing_eq_ok h
    set q : ExitPlan := ⟨Draft.slotsAfter locals.count request.returnsValue, exit, exceptionType⟩
    obtain ⟨parts, hparts⟩ := Draft.shape_of_wrap (q := q) hopened hknown hentry hwrap
    obtain ⟨hanswer', hstack'⟩ := wrapExit_keeps hwrap
    have hasked : ∀ p ∈ some q, p.Asked source request s₁ := by
      rintro _ ⟨⟩
      exact exitTokens_eq_ok htokens
    obtain ⟨c, hc⟩ := instrumented_of_finish hread hdecode hshort hcheck henter hasked
      hpolicy.symm hopened hsome.symm hparts (hanswer'.trans hanswer) (hstack'.trans hstack) hfinish
    exact ⟨body, bytes, code, enter, d.answerSlot, some q, c, hc⟩

end Probe

namespace Instrumented

variable {σ : Type} {source : TokenSource (StateM σ)} {s : σ} {request : ProbeRequest}
  {body : MethodBody} {bytes : List UInt8} {code : List (Instruction Offset)} {enter : Token}
  {answerSlot : UInt16} {plan : Option ExitPlan} {r : ProbedMethod} {c : CodeParts}
  (h : Instrumented source s request body bytes code enter answerSlot plan r c)
include h

/-! ### The code before -/

theorem contiguous : Contiguous 0 code := (decode_eq_ok_iff.mp h.decoded).2.2

theorem codeEnd_eq : codeEnd 0 code = bytes.length := codeEnd_of_decode h.decoded

theorem size_eq : (UInt32.ofNat bytes.length).toNat = codeEnd 0 code :=
  size_of_decode h.decoded h.short

theorem code_ne_nil : code ≠ [] :=
  decode_ne_nil h.decoded (ProbeRequest.read_eq_ok.mp h.read).2.2

end Instrumented

end CilProbe
