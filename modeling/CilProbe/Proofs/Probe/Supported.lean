/-
CilProbe/Proofs/Probe/Supported.lean

Every supported method is instrumented.  Instrumenting goes through many parts that can fail,
one after the other; `Answers` says of a computation that it does not, whatever the state, and
`Gives` that it does not in states of some kind, to which it keeps, and what it answers.  What
the parts need of the method, but for the size of what comes out, is collected in
`Instrumentable`, and each of them gets through: the method is not declined (`checkShape`), the
draft is opened and its locals can be written (`exists_draft`), the probes go in, and the draft
is finished if it can be (`exists_probed`).  Methods that are `Supported` are short enough for
that.

Main result: `probe_supported`.
-/
import CilProbe.Proofs.Probe.Clauses
import CilProbe.Proofs.Probe.Drafting
import CilProbe.Proofs.Probe.Finishing
import CilProbe.Proofs.Probe.Recognition

namespace CilProbe

/-! ### Computations that answer -/

section Answering

variable {ε σ α β : Type}

/-- In every state it comes to an answer. -/
def Answers (x : ExceptT ε (StateM σ) α) : Prop := ∀ s, ∃ a s', x.run.run s = (.ok a, s')

/-- In a state of some kind it comes to an answer of which `Q` holds, and the state is of that
kind again. -/
def Gives (I : σ → Prop) (x : ExceptT ε (StateM σ) α) (Q : α → Prop) : Prop :=
  ∀ s, I s → ∃ a s', x.run.run s = (.ok a, s') ∧ I s' ∧ Q a

/-- In a state of some kind it comes to an answer. -/
def AnswersIn (I : σ → Prop) (x : ExceptT ε (StateM σ) α) : Prop := Gives I x fun _ => True

protected theorem Answers.pure (a : α) : Answers (pure a : ExceptT ε (StateM σ) α) :=
  fun s => ⟨a, s, rfl⟩

theorem Answers.within {x : ExceptT ε (StateM σ) α} (hx : Answers x) :
    AnswersIn (fun _ => True) x := by
  intro s _
  obtain ⟨a, s', ha⟩ := hx s
  exact ⟨a, s', ha, trivial, trivial⟩

variable {I : σ → Prop} {Q : β → Prop} {f : α → ExceptT ε (StateM σ) β}

/-- What comes behind an answer decides about the last one. -/
theorem AnswersIn.bind {x : ExceptT ε (StateM σ) α} (hx : AnswersIn I x)
    (hf : ∀ a, Gives I (f a) Q) : Gives I (x >>= f) Q := by
  intro s hs
  obtain ⟨a, s₁, ha, hs₁, -⟩ := hx s hs
  rw [attempt_bind_of_ok ha]
  exact hf a s₁ hs₁

namespace Gives

protected theorem pure {b : β} (hb : Q b) : Gives I (pure b : ExceptT ε (StateM σ) β) Q :=
  fun s hs => ⟨b, s, rfl, hs, hb⟩

/-- A first part that is there already. -/
theorem known_bind {r : Except ε α} {a : α} (hr : r = .ok a) (hf : Gives I (f a) Q) :
    Gives I (ExceptT.mk (pure r) >>= f) Q := by
  intro s hs
  obtain ⟨b, s', hb, hs', hQ⟩ := hf s hs
  exact ⟨b, s', attempt_mk_bind_eq_ok.mpr ⟨a, hr, hb⟩, hs', hQ⟩

end Gives

/-- A source that never fails. -/
structure TokenSource.NeverFails (source : TokenSource (StateM σ)) : Prop where
  enter : Answers source.enter
  exit (ret : Option TypeSig) : Answers (source.exit ret)
  exceptionType : Answers source.exceptionType
  localSignature (blob : List UInt8) : Answers (source.localSignature blob)

/-- A source that does not fail in states of some kind, if the types it is asked about can be
written. -/
structure TokenSource.Serves (I : σ → Prop) (source : TokenSource (StateM σ)) : Prop where
  enter : AnswersIn I source.enter
  exit {ret : Option TypeSig} : (∀ t ∈ ret, t.write.failure = none) → AnswersIn I (source.exit ret)
  exceptionType : AnswersIn I source.exceptionType
  localSignature (blob : List UInt8) : AnswersIn I (source.localSignature blob)

namespace TokenSource

variable {source : TokenSource (StateM σ)}

theorem NeverFails.serves (h : source.NeverFails) : source.Serves fun _ => True where
  enter := h.enter.within
  exit _ := (h.exit _).within
  exceptionType := h.exceptionType.within
  localSignature blob := (h.localSignature blob).within

theorem Serves.exitTokens (h : source.Serves I) {request : ProbeRequest}
    (hret : request.signature.ret.write.failure = none) (slots : ExitSlots) :
    AnswersIn I (source.exitTokens request slots) := by
  refine (h.exit fun t ht => ?_).bind fun exit => ?_
  · obtain ⟨_, -, rfl⟩ := Option.map_eq_some_iff.mp ht
    exact TypeSig.failure_unmodified hret
  simp only
  split
  · rw [map_eq_pure_bind, bind_assoc]
    exact h.exceptionType.bind fun type => .pure trivial
  · exact .pure trivial

end TokenSource

end Answering

/-! ### Supported methods -/

namespace ProbeRequest

/-- A method that nothing keeps probes from.  Its body is read, and there is code in it, which
decodes and has the right shape together with the clauses; none of them has a filter, and no
instruction keeps probes from being wrapped around it.  The signature of its locals is given
exactly if the header asks for one, and is read as at most 65532 locals.  If there is to be an
exit probe, it is no constructor, and its return type can be written and, apart from modifiers,
is no reference to a place and holds no generic parameter. -/
structure Instrumentable (r : ProbeRequest) (body : MethodBody) (bytes : List UInt8)
    (code : List (Instruction Offset)) (locals : Locals) : Prop where
  readBody : MethodBody.read r.body = .ok body
  readCode : body.code r.body = .ok bytes
  nonempty : bytes ≠ []
  decoded : decode bytes = .ok code
  checked : Check.checkStructure code (.ofNat bytes.length) body.clauses = .ok ()
  unfiltered : ∀ c ∈ body.clauses, c.isFilter = false
  wrappable : ∀ i ∈ code,
    i.opcode ≠ Opcode.jmp ∧ i.opcode ≠ Opcode.tail ∧ i.opcode ≠ Opcode.localloc
  readLocals : Locals.parse r.locals = .ok locals
  localsToken : r.locals = [] ↔ body.localSignature? = none
  localsCount : locals.count ≤ 65532
  exit : r.policy.exit = true → r.isConstructor = false ∧
    (∃ bytes, r.signature.ret.encode = .ok bytes) ∧ r.signature.ret.isByRefLike = false ∧
      r.signature.ret.isOpen = false
  sized : bytes.length ≤ Offset.last

namespace Instrumentable

variable {r : ProbeRequest} {body : MethodBody} {bytes : List UInt8}
  {code : List (Instruction Offset)} {locals : Locals}
  (h : r.Instrumentable body bytes code locals)
include h

theorem code_ne_nil : code ≠ [] := decode_ne_nil h.decoded h.nonempty

theorem checkExit (hexit : r.policy.exit = true) : r.checkExit = .ok () := by
  obtain ⟨hconstructor, -, hbyRef, hopen⟩ := h.exit hexit
  rw [ProbeRequest.checkExit, hconstructor, hbyRef, TypeSig.isOpen_unmodified, hopen]
  rfl

/-- Such methods are not declined. -/
theorem checkShape : r.checkShape body code = .ok () := by
  have hfilter : ¬body.clauses.any Clause.isFilter = true := by
    simpa using h.unfiltered
  have hcode : code.forM checkInstruction = .ok () := forM_eq_ok.mpr fun i hi => by
    obtain ⟨hjump, htail, halloc⟩ := h.wrappable i hi
    rw [checkInstruction, if_neg hjump, if_neg htail, if_neg halloc]
  have hlocals : ¬(body.localSignature?.isSome == r.locals.isEmpty) = true := by
    have htoken := h.localsToken
    rcases hnone : body.localSignature? with - | token
    · rw [htoken.mpr hnone]
      decide
    · rw [hnone] at htoken
      have hne : r.locals ≠ [] := fun hempty => Option.some_ne_none _ (htoken.mp hempty)
      simpa using hne
  unfold ProbeRequest.checkShape
  simp only
  rw [if_neg hfilter, if_neg hlocals]
  refine seq_eq_ok.mpr ⟨hcode, ?_⟩
  split
  · next hexit => exact seq_eq_ok.mpr ⟨h.checkExit hexit, rfl⟩
  · rfl

/-- They are made drafts, whose locals can be written. -/
theorem exists_draft : ∃ d, Draft.ofRequest r body code bytes.length = .ok d ∧
    ∃ blob, d.locals.encode = .ok blob := by
  have hcont := (decode_eq_ok_iff.mp h.decoded).2.2
  have hwell := (Check.checkStructure_eq_ok_iff hcont (size_of_decode h.decoded h.sized)).mp
    h.checked
  have hcount := h.localsCount
  -- with the answer, the probes take three slots at most, and slots end below 65535
  have hslots : r.exitSlotCount ≤ 2 := by
    unfold ProbeRequest.exitSlotCount Draft.slotCount
    split
    · split <;> decide
    · decide
  obtain ⟨d, hd⟩ := Draft.exists_ofRequest h.sized hcont hwell h.readLocals
    (Nat.lt_of_le_of_lt (Nat.add_le_add hcount hslots) (by decide))
    fun hexit => Written.exists_toExcept_iff.mp (h.exit hexit).2.1
  obtain ⟨locals', hlocals', hpushes⟩ := Draft.pushes_of_ofRequest hd
  obtain rfl := Except.ok.inj (hlocals'.symm.trans h.readLocals)
  obtain ⟨numeral, -, hblob, -⟩ :=
    Locals.encode_eq (hpushes.count_le (Nat.le_trans hcount (by decide)))
  exact ⟨d, hd, _, hblob⟩

end Instrumentable

/-- A method that the probes asked for go into.  Its body is read, and there is code in it, of
less than 2^27 bytes, which decodes and has the right shape together with fewer than 600000
clauses; none of them has a filter, and no instruction keeps probes from being wrapped around
it.  The signature of its locals is given exactly if the header asks for one, and is read as at
most 65532 locals.  If there is to be an exit probe, it is no constructor, and its return type
can be written and, apart from modifiers, is no reference to a place and holds no generic
parameter. -/
structure Supported (r : ProbeRequest) (body : MethodBody) (bytes : List UInt8)
    (code : List (Instruction Offset)) (locals : Locals) : Prop where
  readBody : MethodBody.read r.body = .ok body
  readCode : body.code r.body = .ok bytes
  nonempty : bytes ≠ []
  decoded : decode bytes = .ok code
  checked : Check.checkStructure code (.ofNat bytes.length) body.clauses = .ok ()
  unfiltered : ∀ c ∈ body.clauses, c.isFilter = false
  wrappable : ∀ i ∈ code,
    i.opcode ≠ Opcode.jmp ∧ i.opcode ≠ Opcode.tail ∧ i.opcode ≠ Opcode.localloc
  readLocals : Locals.parse r.locals = .ok locals
  localsToken : r.locals = [] ↔ body.localSignature? = none
  localsCount : locals.count ≤ 65532
  exit : r.policy.exit = true → r.isConstructor = false ∧
    (∃ bytes, r.signature.ret.encode = .ok bytes) ∧ r.signature.ret.isByRefLike = false ∧
      r.signature.ret.isOpen = false
  few : body.clauses.length < 600000
  short : bytes.length < 0x8000000

theorem Supported.instrumentable {r : ProbeRequest} {body : MethodBody} {bytes : List UInt8}
    {code : List (Instruction Offset)} {locals : Locals} (h : r.Supported body bytes code locals) :
    r.Instrumentable body bytes code locals :=
  { h with sized := Nat.le_trans (Nat.le_of_lt h.short) (by decide) }

end ProbeRequest

/-! ### Instrumenting -/

section Instrumenting

variable {σ : Type} {I : σ → Prop} {source : TokenSource (StateM σ)} {limit : Nat}

/-- The outcome of instrumenting a method, not of finding it instrumented. -/
def ProbeOutcome.IsProbed (outcome : ProbeOutcome) : Prop := ∃ r, outcome = .probed r

/-- What is left to do when the probes are in place. -/
theorem gives_closing (hsource : source.Serves I) {d : Draft}
    (hlocals : ∃ blob, d.locals.encode = .ok blob)
    (hfinish : ∀ token, ∃ r, d.finish limit token = .ok r) :
    Gives I (do
      let blob ← ExceptT.mk (pure d.locals.encode)
      let token ← source.localSignature blob
      return .probed (← ExceptT.mk (pure (d.finish limit token))) :
        ExceptT Error (StateM σ) ProbeOutcome) ProbeOutcome.IsProbed := by
  obtain ⟨blob, hblob⟩ := hlocals
  refine .known_bind hblob ((hsource.localSignature blob).bind fun token => ?_)
  obtain ⟨r, hr⟩ := hfinish token
  exact .known_bind hr (.pure ⟨r, rfl⟩)

section Method

variable {request : ProbeRequest} {body : MethodBody} {bytes : List UInt8}
  {code : List (Instruction Offset)} {locals : Locals}

/-- Behind the token of the entry helper a method is instrumented, if its draft can be
finished. -/
theorem gives_probeBehind (hsource : source.Serves I)
    (h : request.Instrumentable body bytes code locals) (enter : Token)
    (hfinish : ∀ {size plan d p}, Draft.Shape body code size request.method enter plan d p →
      plan.isSome = request.policy.exit → ∀ token, ∃ r, d.finish (max limit 1) token = .ok r) :
    Gives I (probeBehind limit request source body bytes code enter) ProbeOutcome.IsProbed := by
  obtain ⟨-, hencodable, -⟩ := decode_eq_ok_iff.mp h.decoded
  have hknown : ∀ i ∈ code, i.Known := fun i hi => (hencodable i hi).known
  obtain ⟨d, hopen, hlocals⟩ := h.exists_draft
  obtain ⟨size, -, hopened, -⟩ := Draft.opened_of_ofRequest hopen
  obtain ⟨d', hentry⟩ := d.exists_insertEntry request.method enter
  refine .known_bind h.checkShape (.known_bind hopen (.known_bind hentry ?_))
  have hd' := Draft.insertEntry_eq_ok hopened.mirrors.count hentry
  obtain ⟨locals', -, hslots, -⟩ := hopened.locals
  have hexit : d'.exitSlots = request.exitSlotsAfter locals'.count := by rw [hd', ← hslots]
  have hlocals' : ∃ blob, d'.locals.encode = .ok blob := by
    rw [Draft.insertEntry_locals hentry]
    exact hlocals
  simp only [hexit, ProbeRequest.exitSlotsAfter]
  rcases hpolicy : request.policy.exit with - | -
  · -- only the entry probe
    simp only [Bool.false_eq_true, if_false, pure_bind]
    have hp := Draft.shape_of_entry hopened hknown hentry
    exact gives_closing hsource hlocals' (hfinish hp hpolicy.symm)
  · simp only [if_true]
    have hret := Written.exists_toExcept_iff.mp (h.exit hpolicy).2.1
    refine (hsource.exitTokens hret _).bind fun tokens => ?_
    set q : ExitPlan :=
      ⟨Draft.slotsAfter locals'.count request.returnsValue, tokens.1, tokens.2⟩
    obtain ⟨d'', hwrap⟩ := Draft.exists_wrapExit hopened h.code_ne_nil hentry q.slots tokens.1
      tokens.2
    obtain ⟨p, hp⟩ := Draft.shape_of_wrap (q := q) hopened hknown hentry hwrap
    refine .known_bind hwrap (gives_closing hsource ?_ (hfinish hp hpolicy.symm))
    rw [Draft.wrapExit_locals hwrap]
    exact hlocals'

/-- A method that was not instrumented yet is, if its draft can be finished. -/
theorem exists_probed (hsource : source.Serves I)
    (h : request.Instrumentable body bytes code locals) {s s₁ : σ} {enter : Token} (hs₁ : I s₁)
    (henter : source.enter.run.run s = (.ok enter, s₁))
    (hfresh : isProbed code request.method enter = false)
    (hfinish : ∀ {size plan d p}, Draft.Shape body code size request.method enter plan d p →
      plan.isSome = request.policy.exit → ∀ token, ∃ r, d.finish (max limit 1) token = .ok r) :
    ∃ r s', (probe limit request source).run.run s = (.ok (.probed r), s') ∧ I s' := by
  obtain ⟨outcome, s', hrun, hs', r, rfl⟩ := gives_probeBehind hsource h enter hfinish s₁ hs₁
  refine ⟨r, s', ?_, hs'⟩
  rw [probe_eq]
  refine attempt_mk_bind_eq_ok.mpr ⟨(body, bytes),
    ProbeRequest.read_eq_ok.mpr ⟨h.readBody, h.readCode, h.nonempty⟩, ?_⟩
  refine attempt_mk_bind_eq_ok.mpr ⟨code, h.decoded, ?_⟩
  refine attempt_bind_eq_ok.mpr ⟨enter, s₁, henter, ?_⟩
  rw [hfresh]
  exact hrun

/-- A supported method that was not instrumented yet is, with a source of tokens that does not
fail in states of some kind, and passes enough for the layout. -/
theorem exists_probed_of_supported (hsource : source.Serves I)
    (h : request.Supported body bytes code locals)
    (hlimit : (code.countP fun i => i.opcode.isBranch) +
      (if request.policy.exit then code.countP fun i => i.opcode = Opcode.ret else 0) < limit)
    {s s₁ : σ} {enter : Token} (hs₁ : I s₁) (henter : source.enter.run.run s = (.ok enter, s₁))
    (hfresh : isProbed code request.method enter = false) :
    ∃ r s', (probe limit request source).run.run s = (.ok (.probed r), s') ∧ I s' := by
  refine exists_probed hsource h.instrumentable hs₁ henter hfresh fun hp hplan => ?_
  have hcont := (decode_eq_ok_iff.mp h.decoded).2.2
  rw [← hplan] at hlimit
  exact hp.exists_finish hcont h.instrumentable.code_ne_nil
    (codeEnd_of_decode h.decoded ▸ h.short) h.few
    (Nat.lt_of_lt_of_le hlimit (Nat.le_max_left _ _))

/-- Every supported method is instrumented, unless it starts with the entry probe already, if
the source of tokens never fails and the layout may take more passes than there are branches and,
where there is to be an exit probe, returns. -/
theorem probe_supported (hsource : source.NeverFails)
    (h : request.Supported body bytes code locals)
    (hlimit : (code.countP fun i => i.opcode.isBranch) +
      (if request.policy.exit then code.countP fun i => i.opcode = Opcode.ret else 0) < limit)
    (s : σ) :
    ∃ enter s₁, source.enter.run.run s = (.ok enter, s₁) ∧
      ((isProbed code request.method enter = true ∧
          (probe limit request source).run.run s = (.ok .alreadyProbed, s₁)) ∨
        (isProbed code request.method enter = false ∧
          ∃ r s', (probe limit request source).run.run s = (.ok (.probed r), s'))) := by
  obtain ⟨enter, s₁, henter⟩ := hsource.enter s
  refine ⟨enter, s₁, henter, ?_⟩
  rcases hprobed : isProbed code request.method enter with - | -
  · obtain ⟨r, s', hrun, -⟩ := exists_probed_of_supported hsource.serves h hlimit
      (I := fun _ => True) trivial henter hprobed
    exact .inr ⟨rfl, r, s', hrun⟩
  · have hread : request.read = .ok (body, bytes) :=
      ProbeRequest.read_eq_ok.mpr ⟨h.readBody, h.readCode, h.nonempty⟩
    exact .inl ⟨rfl, probe_of_isProbed hread h.decoded henter hprobed⟩

end Method

end Instrumenting

/-! ### A method with a branch and a return -/

/-- The code of `guardedRequest`. -/
def guardedCode : List (Instruction Offset) :=
  [⟨0, ⟨0x00⟩, .none⟩, ⟨1, ⟨0xDE⟩, .target 3⟩, ⟨3, ⟨0x2A⟩, .none⟩, ⟨4, ⟨0xDC⟩, .none⟩]

theorem supported_guardedRequest :
    guardedRequest.Supported ⟨5, 12, ⟨0⟩, 8, true, false, [guardClause]⟩
      [0x00, 0xDE, 0x00, 0x2A, 0xDC] guardedCode .none where
  readBody := by decide +kernel
  readCode := by decide +kernel
  nonempty := by decide
  decoded := by decide +kernel
  checked := by decide +kernel
  unfiltered := by decide +kernel
  wrappable := by decide +kernel
  readLocals := rfl
  localsToken := iff_of_true rfl rfl
  localsCount := by decide
  exit _ := ⟨rfl, ⟨[0x01], rfl⟩, rfl, rfl⟩
  few := by decide
  short := by decide

theorem neverFails_fixedSource : fixedSource.NeverFails :=
  ⟨.pure _, fun _ => .pure _, .pure _, fun _ => .pure _⟩

/-- Its branch and its return are two, so three passes are enough, and it does not start with the
entry probe. -/
theorem probe_supported_guardedRequest :
    fixedSource.NeverFails ∧
      (guardedCode.countP fun i => i.opcode.isBranch) = 1 ∧
      (guardedCode.countP fun i => i.opcode = Opcode.ret) = 1 ∧
      ∃ r s', (probe 3 guardedRequest fixedSource).run.run () = (.ok (.probed r), s') := by
  have hbranches : (guardedCode.countP fun i => i.opcode.isBranch) = 1 := by decide
  have hreturns : (guardedCode.countP fun i => i.opcode = Opcode.ret) = 1 := by decide
  have hlimit : (guardedCode.countP fun i => i.opcode.isBranch) +
      (if guardedRequest.policy.exit then guardedCode.countP fun i => i.opcode = Opcode.ret
        else 0) < 3 := by
    rw [hbranches, hreturns]
    decide
  obtain ⟨enter, s₁, -, ⟨hprobed, -⟩ | ⟨-, hrun⟩⟩ :=
    probe_supported neverFails_fixedSource supported_guardedRequest hlimit ()
  · cases hprobed
  · exact ⟨neverFails_fixedSource, hbranches, hreturns, hrun⟩

end CilProbe
