/-
CilProbe/Proofs/Probe/Recognition.lean

Instrumented code is recognised.  It starts with the entry probe, whatever the
method was, and the entry probe is written in the one form that `isProbed` looks for
(`isProbed_all`).  So a second request for the method finds the probe before it looks
at anything else of the request, and asks its source for the entry helper only
(`probe_again`).
-/
import CilProbe.Proofs.Probe.Relocation

namespace CilProbe

/-! ### The entry probe in code -/

/-- A constant is loaded in its long form, so it is the one written there. -/
theorem constant?_of_act {i : Instruction Offset} {value : Int32}
    (h : i.act = ⟨Opcode.ldc, .int32 value⟩) : i.constant? = some value := by
  have hop : i.opcode = Opcode.ldc :=
    Opcode.eq_of_longForm_eq (congrArg Act.opcode h) (by decide +kernel)
  have hoperand : i.operand = .int32 value := congrArg Act.operand h
  unfold Instruction.constant?
  rw [hop, hoperand]
  rfl

/-- Code that starts with what the entry probe says is recognised. -/
theorem isProbed_of_acts {code rest : List (Instruction Offset)} {method enter : Token}
    {answerSlot : UInt16} {entry : List (Instruction Offset)} (hcode : code = entry ++ rest)
    (h : entry.map Instruction.act = entryActs method enter answerSlot) :
    isProbed code method enter = true := by
  obtain ⟨load, rest₁, rfl, hload, h⟩ := List.map_eq_cons_iff.mp h
  obtain ⟨call, rest₂, rfl, hcall, -⟩ := List.map_eq_cons_iff.mp h
  have hop : call.opcode = Opcode.call :=
    Opcode.eq_of_longForm_eq (congrArg Act.opcode hcall) (by decide +kernel)
  have hoperand : call.operand = .token enter := congrArg Act.operand hcall
  subst hcode
  simp [isProbed, constant?_of_act hload, hop, Instruction.token?, hoperand]

theorem Relocated.isProbed_all {body : MethodBody} {code : List (Instruction Offset)}
    {size : Offset} {method enter : Token} {answerSlot : UInt16} {plan : Option ExitPlan}
    {r : ProbedMethod} {c : CodeParts}
    (h : Relocated body code size method enter answerSlot plan r c) :
    isProbed c.all method enter = true :=
  isProbed_of_acts rfl h.entry

/-! ### Another request -/

/-- What comes behind the token of the entry helper when a method is instrumented. -/
def probeBehind {m : Type → Type} [Monad m] (passLimit : Nat) (request : ProbeRequest)
    (source : TokenSource m) (body : MethodBody) (code : List UInt8)
    (instructions : List (Instruction Offset)) (enter : Token) : ExceptT Error m ProbeOutcome := do
  ExceptT.mk (pure (request.checkShape body instructions))
  let draft ← ExceptT.mk (pure (Draft.ofRequest request body instructions code.length))
  let draft ← ExceptT.mk (pure (draft.insertEntry request.method enter))
  let draft ←
    match draft.exitSlots with
    | none => pure draft
    | some slots => do
      let (exit, exceptionType) ← source.exitTokens request slots
      ExceptT.mk (pure (draft.wrapExit slots exit exceptionType))
  let blob ← ExceptT.mk (pure draft.locals.encode)
  let localsToken ← source.localSignature blob
  return .probed (← ExceptT.mk (pure (draft.finish (max passLimit 1) localsToken)))

/-- Instrumenting comes to the token of the entry helper first. -/
theorem probe_eq {m : Type → Type} [Monad m] (limit : Nat) (request : ProbeRequest)
    (source : TokenSource m) :
    probe limit request source = (do
      let (body, code) ← ExceptT.mk (pure request.read)
      let instructions ← ExceptT.mk (pure (decode code))
      let enter ← source.enter
      if isProbed instructions request.method enter then return .alreadyProbed
      probeBehind limit request source body code instructions enter) := rfl

/-- A request for code that is recognised is done when the entry helper is known. -/
theorem probe_of_isProbed {σ : Type} {source : TokenSource (StateM σ)} {request : ProbeRequest}
    {limit : Nat} {body : MethodBody} {bytes : List UInt8} {code : List (Instruction Offset)}
    {enter : Token} {s s' : σ} (hread : request.read = .ok (body, bytes))
    (hdecode : decode bytes = .ok code) (henter : source.enter.run.run s = (.ok enter, s'))
    (hprobed : isProbed code request.method enter = true) :
    (probe limit request source).run.run s = (.ok .alreadyProbed, s') := by
  rw [probe_eq]
  refine attempt_mk_bind_eq_ok.mpr ⟨(body, bytes), hread, ?_⟩
  refine attempt_mk_bind_eq_ok.mpr ⟨code, hdecode, ?_⟩
  refine attempt_bind_eq_ok.mpr ⟨enter, s', henter, ?_⟩
  rw [if_pos hprobed]
  rfl

/-- Instrumenting is idempotent: a second request for a method that came out
instrumented finds it instrumented already, whatever else the request says, as long as
its source knows the same entry helper.  The source is left as it was when it had
answered that, so nothing more is asked of it. -/
theorem probe_again {σ τ : Type} {source : TokenSource (StateM σ)}
    {source' : TokenSource (StateM τ)} {request request' : ProbeRequest} {limit limit' : Nat}
    {r : ProbedMethod} {enter : Token} {s s₁ s' : σ} {t t' : τ}
    (h : (probe limit request source).run.run s = (.ok (.probed r), s'))
    (henter : source.enter.run.run s = (.ok enter, s₁))
    (hmethod : request'.method = request.method) (hbody : request'.body = r.body)
    (henter' : source'.enter.run.run t = (.ok enter, t')) :
    (probe limit' request' source').run.run t = (.ok .alreadyProbed, t') := by
  obtain ⟨body, bytes, code, enter₁, answerSlot, plan, c, hi⟩ := instrumented_of_probe h
  obtain ⟨_, hasked, -⟩ := hi.asked
  -- the helper in the code is the one that the second source knows
  obtain rfl : enter = enter₁ := by
    rw [henter] at hasked
    exact Except.ok.inj (Prod.mk.inj hasked).1
  have hr := hi.relocated
  obtain ⟨body', hread, hcode, -⟩ := hr.read
  -- without any code the request would be declined first, but there is the probe
  have hne : codeBytes c.all ≠ [] := by
    intro hnil
    have hdecoded := hr.decode_all
    rw [hnil] at hdecoded
    have hprobed := hr.isProbed_all
    rw [← Except.ok.inj hdecoded] at hprobed
    cases hprobed
  have hread' : request'.read = .ok (body', codeBytes c.all) := by
    rw [ProbeRequest.read_eq_ok, hbody]
    exact ⟨hread, hcode, hne⟩
  refine probe_of_isProbed hread' hr.decode_all henter' ?_
  rw [hmethod]
  exact hr.isProbed_all

/-! ### A method that returns a constant -/

/-- A source that knows the entry helper and nothing else, and counts what it is
asked. -/
def countingSource : TokenSource (StateM Nat) where
  enter := do
    modify (· + 1)
    return ⟨0x0A000001⟩
  exit _ := do
    modify (· + 1)
    throw (.tokenNotFound ⟨0⟩)
  exceptionType := do
    modify (· + 1)
    throw (.tokenNotFound ⟨0⟩)
  localSignature _ := do
    modify (· + 1)
    throw (.tokenNotFound ⟨0⟩)

/-- The instrumented method once more, now said to be a constructor with locals that do
not belong to it. -/
def constantAgain : ProbeRequest where
  method := ⟨0x06000001⟩
  body := probedConstant.body
  signature := .static (.byRef (.primitive .i4)) []
  locals := []
  isConstructor := true
  policy := .full

theorem probe_again_constant :
    (probe 32 constantRequest fixedSource).run.run () = (.ok (.probed probedConstant), ()) ∧
      constantAgain.body = probedConstant.body ∧
      (probe 0 constantAgain countingSource).run.run 0 = (.ok .alreadyProbed, 1) :=
  ⟨probe_constantRequest, rfl, probe_again probe_constantRequest rfl rfl rfl rfl⟩

end CilProbe
