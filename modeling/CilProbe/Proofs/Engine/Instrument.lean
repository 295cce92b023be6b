/-
CilProbe/Proofs/Engine/Instrument.lean

Checking what an engine instruments.  Against a runtime, an engine's computation is
one on the state of both (`Attempt.within`), so what is known of instrumenting
holds for an engine.  The check of the shape of a body accepts what was made of a
body that it accepts (`checkBody_of_instrumented`), so as far as that check goes,
an engine might as well not check.
-/
import CilProbe.Engine.Dispatch
import CilProbe.Proofs.Check.Body
import CilProbe.Proofs.Probe.Structure
import Mathlib

namespace CilProbe

/-! ### Bodies of the right shape -/

namespace Check

/-- A body that can be read, whose code is shorter than the longest there can be, and
which has the right shape. -/
structure Acceptable (data : List UInt8) (body : MethodBody) (bytes : List UInt8)
    (code : List (Instruction Offset)) : Prop where
  read : MethodBody.read data = .ok body
  holds : body.code data = .ok bytes
  decoded : decode bytes = .ok code
  short : bytes.length < Offset.last
  structure_ : checkStructure code (.ofNat bytes.length) body.clauses = .ok ()

variable {σ : Type} {source : TokenSource (StateM σ)} {s : σ} {request : ProbeRequest}
  {body body' : MethodBody} {bytes bytes' : List UInt8} {code code' : List (Instruction Offset)}
  {enter : Token} {answerSlot : UInt16} {plan : Option ExitPlan} {r : ProbedMethod}
  {c : CodeParts}

/-- What was made of an acceptable body has the right shape. -/
theorem wellStructured_of_instrumented
    (h : Instrumented source s request body bytes code enter answerSlot plan r c)
    (hbody : Acceptable request.body body' bytes' code') :
    WellStructured c.all (.ofNat (codeEnd 0 c.all))
      (body.clauses.map (Clause.moved (r.edge (.ofNat c.innerEnd))) ++
        plan.elim [] fun p => c.exitClauses p.exceptionType) := by
  obtain ⟨hread, hbytes, -⟩ := ProbeRequest.read_eq_ok.mp h.read
  obtain rfl := Except.ok.inj (hread.symm.trans hbody.read)
  obtain rfl := Except.ok.inj (hbytes.symm.trans hbody.holds)
  obtain rfl := Except.ok.inj (h.decoded.symm.trans hbody.decoded)
  have hcont := h.contiguous
  have hlen := h.codeEnd_eq
  have hshort := hbody.short
  have hsize := h.size_eq
  have hcode := (checkStructure_eq_ok_iff hcont hsize).mp hbody.structure_
  exact h.relocated.wellStructured hcont hsize (hcode.proper hcont hsize (by omega))
    (ProbeRequest.checkShape_eq_ok h.shape).1 hcode

/-- The check of the shape accepts what was made of an acceptable body. -/
theorem checkBody_of_instrumented
    (h : Instrumented source s request body bytes code enter answerSlot plan r c)
    (hbody : Acceptable request.body body' bytes' code') (returnsValue : Bool) :
    checkBody r.body returnsValue none = .ok none := by
  have hr := h.relocated
  obtain ⟨new, hread, hcode, -, -, -, hclauses⟩ := hr.read
  have hlen : codeEnd 0 c.all = (codeBytes c.all).length := by
    rw [codeEnd_eq hr.encodable, Nat.zero_add]
  have hsize : (UInt32.ofNat (codeEnd 0 c.all)).toNat = codeEnd 0 c.all :=
    hr.toNat_ofNat (Nat.le_refl _)
  rw [checkBody_none hread hcode hr.decode_all, ← hlen, hclauses,
    (checkStructure_eq_ok_iff hr.contiguous hsize).mpr (wellStructured_of_instrumented h hbody)]
  rfl

end Check

/-! ### Runs -/

section Runs

variable {σ τ α β : Type} (h : Host τ) (deliver : Event → World σ τ → World σ τ)

/-- A computation against a runtime, as one on the state of both. -/
def Attempt.within (x : Attempt σ α) : ExceptT Error (StateM (World σ τ)) α :=
  fun w => x.run.run h deliver w

/-- A source of tokens that asks a runtime, as one with the state of both. -/
def TokenSource.within (source : TokenSource (Proc σ)) : TokenSource (StateM (World σ τ)) where
  enter := Attempt.within h deliver source.enter
  exit ret := Attempt.within h deliver (source.exit ret)
  exceptionType := Attempt.within h deliver source.exceptionType
  localSignature blob := Attempt.within h deliver (source.localSignature blob)

namespace Attempt

theorem within_bind (x : Attempt σ α) (f : α → Attempt σ β) :
    within h deliver (x >>= f) = within h deliver x >>= fun a => within h deliver (f a) := by
  funext w
  show (Proc.bind x.run _).run h deliver w =
    (ExceptT.bindCont (fun a => within h deliver (f a)) (x.run.run h deliver w).1).run
      (x.run.run h deliver w).2
  rw [Proc.run_bind]
  rcases x.run.run h deliver w with ⟨e | a, w'⟩ <;> rfl

theorem within_map (f : α → β) (x : Attempt σ α) :
    within h deliver (f <$> x) = f <$> within h deliver x := by
  rw [map_eq_pure_bind f (within h deliver x)]
  funext w
  show (Proc.bind x.run _).run h deliver w =
    (ExceptT.bindCont (fun a => (pure (f a) : ExceptT Error (StateM (World σ τ)) β))
      (x.run.run h deliver w).1).run (x.run.run h deliver w).2
  rw [Proc.run_bind]
  rcases x.run.run h deliver w with ⟨e | a, w'⟩ <;> rfl

theorem within_pure (a : α) : within h deliver (pure a : Attempt σ α) = pure a := rfl

theorem within_mk (r : Except Error α) :
    within h deliver (ExceptT.mk (pure r) : Attempt σ α) = ExceptT.mk (pure r) := rfl

/-- Looking at how a computation came out is running it. -/
theorem within_lift {x : Attempt σ α} {w w' : World σ τ} {outcome : Except Error α} :
    (within h deliver (ExceptT.lift x.run)).run.run w = (.ok outcome, w') ↔
      (within h deliver x).run.run w = (outcome, w') := by
  show (Proc.bind x.run _).run h deliver w = _ ↔ x.run.run h deliver w = _
  rw [Proc.run_bind]
  rcases x.run.run h deliver w with ⟨a, w₁⟩
  constructor
  · intro heq
    cases heq
    rfl
  · intro heq
    cases heq
    rfl

end Attempt

theorem exitTokens_within (request : ProbeRequest) (source : TokenSource (Proc σ))
    (slots : ExitSlots) :
    Attempt.within h deliver (source.exitTokens request slots) =
      (source.within h deliver).exitTokens request slots := by
  unfold TokenSource.exitTokens
  rw [Attempt.within_bind]
  refine congrArg _ (funext fun exit => ?_)
  rcases request.policy.exception with - | -
  · rfl
  · simp only [if_true, Attempt.within_bind, Attempt.within_map]
    rfl

/-- Instrumenting against a runtime is instrumenting with the state of both. -/
theorem probe_within (limit : Nat) (request : ProbeRequest) (source : TokenSource (Proc σ)) :
    Attempt.within h deliver (probe limit request source) =
      probe limit request (source.within h deliver) := by
  unfold probe
  simp only [Attempt.within_bind, Attempt.within_mk]
  refine congrArg _ (funext fun ⟨body, bytes⟩ => ?_)
  refine congrArg _ (funext fun code => ?_)
  refine congrArg _ (funext fun enter => ?_)
  split
  · rfl
  simp only [Attempt.within_bind, Attempt.within_mk]
  refine congrArg _ (funext fun _ => ?_)
  refine congrArg _ (funext fun d => ?_)
  refine congrArg _ (funext fun d' => ?_)
  split
  · simp only [Attempt.within_bind, Attempt.within_mk, Attempt.within_pure]
    rfl
  · simp only [Attempt.within_bind, Attempt.within_mk, Attempt.within_pure, exitTokens_within]
    rfl

end Runs

/-! ### Engines -/

namespace Engine

variable {τ : Type} (h : Host τ) (deliver : Event → World EngineState τ → World EngineState τ)

/-- Where a body has the right shape, checking for that changes nothing. -/
theorem check_of_structural {e : Engine} (he : e.verify = .structural) {s : Subject}
    {data : List UInt8}
    (hdata : Check.checkBody data (!s.descriptor.signature.ret.isVoid) none = .ok none) :
    e.check s data = ({ e with verify := .off } : Engine).check s data := by
  unfold check
  rw [he]
  simp only [hdata]
  rfl

/-- An engine that checks the shape of what it instruments does just what it would do
if it did not check, on every method whose body has the right shape. -/
theorem instrument_of_structural {e : Engine} (he : e.verify = .structural) (s : Subject)
    (rule : Rule) {w : World EngineState τ}
    (hbody : ∀ data locals w', (readMethod s).run.run h deliver w = (.ok (data, locals), w') →
      ∃ body bytes code, Check.Acceptable data body bytes code) :
    (e.instrument s rule).run.run h deliver w =
      (({ e with verify := .off } : Engine).instrument s rule).run.run h deliver w := by
  show (Attempt.within h deliver (e.instrument s rule)).run.run w =
    (Attempt.within h deliver (({ e with verify := .off } : Engine).instrument s rule)).run.run w
  unfold instrument
  simp only [Attempt.within_bind]
  refine attempt_bind_congr fun ⟨data, locals⟩ w₁ hread => ?_
  obtain ⟨body, bytes, code, hacceptable⟩ := hbody data locals w₁ hread
  refine attempt_bind_congr fun attempt w₂ hattempt => ?_
  split
  · next r =>
    have hprobe : (Attempt.within h deliver (probe e.passLimit (request s rule data locals)
        (rule.helper.tokens (moduleAccess s.record.module s.record.cache)))).run.run w₁ =
          (.ok (.probed r), w₂) :=
      (Attempt.within_lift h deliver).mp hattempt
    rw [probe_within] at hprobe
    obtain ⟨body', bytes', code', enter, slot, plan, c, hi⟩ := instrumented_of_probe hprobe
    rw [check_of_structural he (Check.checkBody_of_instrumented hi hacceptable _)]
  · rfl
  · rfl

/-- The same for everything that the engine does when a function is about to be
compiled, its counts included, if all bodies that the runtime has are of the right
shape. -/
theorem act_compiling_of_structural {e : Engine} (he : e.verify = .structural)
    (hbody : ∀ s w data locals w', (readMethod s).run.run h deliver w = (.ok (data, locals), w') →
      ∃ body bytes code, Check.Acceptable data body bytes code)
    (function : FunctionId) (blocking : Bool) (w : World EngineState τ) :
    (e.act (.compiling function blocking)).run h deliver w =
      (({ e with verify := .off } : Engine).act (.compiling function blocking)).run
        h deliver w := by
  have hcompile : (Attempt.within h deliver (e.compile function)).run.run w =
      (Attempt.within h deliver (({ e with verify := .off } : Engine).compile function)).run.run
        w := by
    unfold compile
    simp only [Attempt.within_bind]
    refine attempt_bind_congr fun found w₁ _ => ?_
    rcases found with - | ⟨id, record, token⟩
    · rfl
    simp only [Attempt.within_bind]
    refine attempt_bind_congr fun selected w₂ _ => ?_
    rcases selected with - | - | ⟨s, rule⟩
    · rfl
    · rfl
    simp only [Attempt.within_bind]
    refine attempt_bind_congr fun claimed w₃ _ => ?_
    split
    · -- the engines differ only behind the claim
      exact instrument_of_structural h deliver he s rule (hbody s w₃)
    · rfl
  show (Proc.bind (e.compile function).run _).run h deliver w = (Proc.bind _ _).run h deliver w
  rw [Proc.run_bind, Proc.run_bind]
  rw [show (e.compile function).run.run h deliver w =
    (({ e with verify := .off } : Engine).compile function).run.run h deliver w from hcompile]

end Engine

/-- The kinds of the exit probe's clauses. -/
theorem CodeParts.flags_exitClauses (c : CodeParts) (exceptionType : Option Token) :
    (c.exitClauses exceptionType).map Clause.flags =
      (if exceptionType.isSome then [.catch_] else []) ++ [.finallyOnly] := by
  rcases exceptionType with - | type <;> rfl

namespace Check

/-- Bytes of a body whose code is shorter than the longest there can be, and which has
the right shape. -/
def HasShape (data : List UInt8) : Prop :=
  ∃ body bytes code, MethodBody.read data = .ok body ∧ body.code data = .ok bytes ∧
    decode bytes = .ok code ∧ bytes.length < 2 ^ 32 - 1 ∧
    checkStructure code (.ofNat bytes.length) body.clauses = .ok ()

end Check

/-- A body whose code and clauses have the right shape still has it when it is
instrumented, whatever the policy and wherever the tokens come from: the check of the
new body succeeds.  The clauses of the method come first in its table, in their order,
and then those of the exit probe.  So an engine that checks the shape of what it
instruments never rejects what it made of such a body: with it, and with a function
that is about to be compiled, it does what it would do if it did not check. -/
theorem structure_survives :
    (∀ {σ : Type} (source : TokenSource (StateM σ)) (request : ProbeRequest) (limit : Nat)
      (r : ProbedMethod) (s s' : σ), Check.HasShape request.body →
      (probe limit request source).run.run s = (.ok (.probed r), s') →
      (∀ returnsValue, Check.checkBody r.body returnsValue none = .ok none) ∧
      ∃ body body' bytes' code' edge exits, MethodBody.read request.body = .ok body ∧
        MethodBody.read r.body = .ok body' ∧ body'.code r.body = .ok bytes' ∧
        decode bytes' = .ok code' ∧
        Check.checkStructure code' (.ofNat bytes'.length) body'.clauses = .ok () ∧
        body'.clauses = body.clauses.map (Clause.moved edge) ++ exits ∧
        exits.map Clause.flags =
          if request.policy.exit then
            (if request.policy.exception then [.catch_] else []) ++ [.finallyOnly]
          else []) ∧
    ∀ {τ : Type} (h : Host τ) (deliver : Event → World EngineState τ → World EngineState τ)
      (e : Engine), e.verify = .structural →
      (∀ s rule w, (∀ data locals w',
          (Engine.readMethod s).run.run h deliver w = (.ok (data, locals), w') →
            Check.HasShape data) →
        (e.instrument s rule).run.run h deliver w =
          (({ e with verify := .off } : Engine).instrument s rule).run.run h deliver w) ∧
      ((∀ s w data locals w',
          (Engine.readMethod s).run.run h deliver w = (.ok (data, locals), w') →
            Check.HasShape data) →
        ∀ function mayBlock w,
          (e.act (.compiling function mayBlock)).run h deliver w =
            (({ e with verify := .off } : Engine).act (.compiling function mayBlock)).run h
              deliver w) := by
  have hshape : ∀ {data}, Check.HasShape data →
      ∃ body bytes code, Check.Acceptable data body bytes code := fun
    | ⟨body, bytes, code, hbody, hbytes, hcode, hshort, hstructure⟩ =>
      ⟨body, bytes, code, hbody, hbytes, hcode, hshort, hstructure⟩
  refine ⟨?_, fun h deliver e he => ⟨fun s rule w hbody => ?_, fun hbody => ?_⟩⟩
  · intro σ source request limit r s s' hdata h
    obtain ⟨body, bytes, code, hacceptable⟩ := hshape hdata
    obtain ⟨body₁, bytes₁, code₁, enter, slot, plan, c, hi⟩ := instrumented_of_probe h
    obtain ⟨hread, -, -⟩ := ProbeRequest.read_eq_ok.mp hi.read
    have hr := hi.relocated
    obtain ⟨new, hnew, hnewCode, -, -, -, hclauses⟩ := hr.read
    have hcheck := Check.checkBody_of_instrumented hi hacceptable
    refine ⟨hcheck, body₁, new, codeBytes c.all, c.all, r.edge (.ofNat c.innerEnd), _, hread, hnew,
      hnewCode, hr.decode_all, ?_, hclauses, ?_⟩
    · have hnone := (Check.checkBody_none hnew hnewCode hr.decode_all true).symm.trans
        (hcheck true)
      rcases hresult : Check.checkStructure c.all (.ofNat (codeBytes c.all).length) new.clauses with
        e | _
      · rw [hresult] at hnone
        cases hnone
      · rfl
    · rcases plan with - | p
      · rw [← hi.planned]
        rfl
      · obtain ⟨s₁, -, hasked⟩ := hi.asked
        rw [← hi.planned, Option.elim_some, CodeParts.flags_exitClauses, (hasked p rfl).observed]
        rfl
  · exact Engine.instrument_of_structural h deliver he s rule fun data locals w' hread =>
      hshape (hbody data locals w' hread)
  · exact Engine.act_compiling_of_structural h deliver he fun s w data locals w' hread =>
      hshape (hbody s w data locals w' hread)

/-! ### A runtime with one method -/

/-- Metadata that says nothing. -/
def silentMetadata : MetadataView where
  typeName _ := .error .outOfBounds
  methodProps _ := .error .outOfBounds
  memberSignature _ := .error .outOfBounds
  standAloneSignature _ := .error .outOfBounds
  coreLibrary := .error .outOfBounds
  hierarchy := none

/-- A runtime in which every method returns zero. -/
def constantHost : Host Unit where
  interrupts _ u := ([], u)
  answer
    | .version, u => (.ok default, u)
    | .inspection, u => (.ok (), u)
    | .register _, u => (.ok (), u)
    | .unregister, u => (.ok (), u)
    | .functionInfo _, u => (.ok ⟨1, constantRequest.method⟩, u)
    | .moduleInfo _, u => (.ok ⟨1, "Sample", default⟩, u)
    | .openMetadata _, u => (.ok (), u)
    | .metadata _, u => (silentMetadata, u)
    | .define _ _, u => (.ok ⟨0x0A000001⟩, u)
    | .readBody _ _, u => (.ok constantRequest.body, u)
    | .install _ _ _, u => (.ok (), u)

/-- An engine without rules that checks the shape of what it instruments. -/
def structuralEngine : Engine := ⟨⟨[], ∅, ∅, false⟩, 32, .structural⟩

theorem hasShape_constantRequest : Check.HasShape constantRequest.body :=
  ⟨_, _, _, rfl, rfl, rfl, by decide, rfl⟩

theorem structure_survives_constantRequest :
    Check.HasShape constantRequest.body ∧
      (probe 32 constantRequest fixedSource).run.run () = (.ok (.probed probedConstant), ()) ∧
      Check.checkBody probedConstant.body true none = .ok none ∧
      (structuralEngine.act (.compiling 1 true)).run constantHost (fun _ w => w) ⟨.fresh 3, ()⟩ =
        (({ structuralEngine with verify := .off } : Engine).act (.compiling 1 true)).run
          constantHost (fun _ w => w) ⟨.fresh 3, ()⟩ := by
  obtain ⟨hbodies, hengines⟩ := structure_survives
  obtain ⟨hcheck, -⟩ := hbodies fixedSource constantRequest 32 probedConstant () ()
    hasShape_constantRequest probe_constantRequest
  obtain ⟨-, hcompiling⟩ := hengines constantHost (fun _ w => w) structuralEngine rfl
  refine ⟨hasShape_constantRequest, probe_constantRequest, hcheck true, ?_⟩
  refine hcompiling (fun s w data locals w' hread => ?_) 1 true ⟨.fresh 3, ()⟩
  have hdata : (Engine.readMethod s).run.run constantHost (fun _ w => w) w =
    (.ok (constantRequest.body, []), w) := rfl
  rw [hdata] at hread
  cases hread
  exact hasShape_constantRequest

end CilProbe
