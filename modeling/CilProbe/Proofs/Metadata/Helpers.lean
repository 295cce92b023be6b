/-
CilProbe/Proofs/Metadata/Helpers.lean

What the tokens of helpers stand for.  A token for one of a helper's methods comes at the end of
a chain of rows, the assembly, the type in it and the method on that, and any of these may have
been defined for an earlier request, be it for another helper or one that failed further on.

`Orderly` computations leave a desk in order and only add to its calls, so what is known when a
token is given back stays known (`orderly_token`, `Orderly.bind`).  `Desk.Means` says what a token
stands for.  A row has one token, so equal subjects have equal tokens (`Means.unique`); a
registrar that issues a new token for each row makes the chain one-to-one (`Means.inj`).

Main result: `helper_tokens_denote`.
-/
import CilProbe.Engine.HelperTokens
import CilProbe.Proofs.Metadata.Rows
import CilProbe.Proofs.Signature.Rereading
import Mathlib.Data.List.Pairwise

namespace CilProbe

variable {τ α β : Type}

/-! ### Requests for helper tokens -/

/-- A request for a token that code calling a helper refers to. -/
inductive HelperRequest where
  /-- The method called at the entry. -/
  | enter (h : HelperRef)
  /-- The method called at the exit, with the type of the value that is handed on. -/
  | exit (h : HelperRef) (ret : Option TypeSig)
  /-- The class of exceptions. -/
  | exceptionType (h : HelperRef)
  /-- A signature of local variables. -/
  | localSignature (h : HelperRef) (blob : List UInt8)

/-- What a token is asked for. -/
inductive HelperSubject where
  /-- A method, with its signature. -/
  | member (assembly typeName name : String) (blob : List UInt8)
  /-- The class of exceptions. -/
  | exceptionType
  /-- A signature of local variables. -/
  | locals (blob : List UInt8)
  deriving DecidableEq

namespace HelperRequest

/-- What the request is for, if its signature can be written. -/
def subject : HelperRequest → Except Error HelperSubject
  | enter h => do
    return .member h.assembly h.typeName h.enterMethod (← HelperRef.enterSignature.encode)
  | exit h ret => do
    return .member h.assembly h.typeName h.exitMethod (← (HelperRef.exitSignature ret).encode)
  | exceptionType _ => return .exceptionType
  | localSignature _ blob => return .locals blob

/-- Whether a value that is handed on has a return type that was read, with or without its
modifiers. -/
def ReturnsParsed : HelperRequest → Prop
  | exit _ ret => ∀ t ∈ ret, ∃ blob s, MethodSig.parse blob = .ok s ∧
      (t = s.ret ∨ t = s.ret.unmodified)
  | _ => True

/-- Answering the request. -/
def token {m : Type → Type} [Monad m] (a : ModuleAccess m) : HelperRequest → ExceptT Error m Token
  | enter h => (h.tokens a).enter
  | exit h ret => (h.tokens a).exit ret
  | exceptionType h => (h.tokens a).exceptionType
  | localSignature h blob => (h.tokens a).localSignature blob

end HelperRequest

namespace Registrar

variable (r : Registrar τ)

/-- Answer a request. -/
def ask (q : HelperRequest) (d : Desk τ) : Except Error Token × Desk τ :=
  (q.token r.access).run.run d

/-- Answer requests, one after the other. -/
def askAll : List HelperRequest → Desk τ → List (HelperRequest × Except Error Token) × Desk τ
  | [], d => ([], d)
  | q :: qs, d =>
    let (answer, d) := r.ask q d
    let (answers, d) := askAll qs d
    ((q, answer) :: answers, d)

end Registrar

/-! ### Computations that leave a desk in order -/

namespace Desk

/-- A desk is still in order, and calls were only added. -/
structure Grown (retryLimit : Nat) (d d' : Desk τ) : Prop where
  kept : d'.Kept retryLimit
  calls : d.calls <+: d'.calls

namespace Grown

variable {retryLimit : Nat} {d d' d'' : Desk τ}

theorem refl (hd : d.Kept retryLimit) : Grown retryLimit d d := ⟨hd, List.prefix_rfl⟩

theorem trans (h : Grown retryLimit d d') (h' : Grown retryLimit d' d'') :
    Grown retryLimit d d'' := ⟨h'.kept, h.calls.trans h'.calls⟩

end Grown

end Desk

/-- The computation leaves every desk in order. -/
def Orderly (x : ExceptT Error (StateM (Desk τ)) α) : Prop :=
  ∀ ⦃retryLimit : Nat⦄ ⦃d : Desk τ⦄, d.Kept retryLimit → d.Grown retryLimit (x.run.run d).2

theorem Orderly.bind {x : ExceptT Error (StateM (Desk τ)) α}
    {f : α → ExceptT Error (StateM (Desk τ)) β} (hx : Orderly x) (hf : ∀ a, Orderly (f a)) :
    Orderly (x >>= f) := by
  intro retryLimit d hd
  have h := hx hd
  rcases hrun : x.run.run d with ⟨e | a, d'⟩
  · -- where the first part fails, what it has defined stays
    rw [hrun] at h
    rw [attempt_bind_of_error hrun]
    exact h
  · rw [hrun] at h
    rw [attempt_bind_of_ok hrun]
    exact h.trans (hf a h.kept)

theorem orderly_known (result : Except Error α) :
    Orderly (τ := τ) (ExceptT.mk (pure result)) := fun _ _ hd => .refl hd

section

variable (r : Registrar τ)

theorem orderly_token (row : MetadataRow) : Orderly (r.access.token row) := by
  intro retryLimit d hd
  refine ⟨kept_request row hd, ?_⟩
  show d.calls <+: (r.request row d).2.calls
  have hserved := served_request r row hd.lock
  generalize r.request row d = result at hserved ⊢
  obtain ⟨answer, d'⟩ := result
  cases hserved with
  | known => exact List.prefix_rfl
  | refused => exact List.prefix_append _ _
  | recorded => exact List.prefix_append _ _

theorem orderly_coreLibrary : Orderly (ExceptT.mk r.access.coreLibrary) :=
  fun _ _ hd => ⟨⟨hd.lock, hd.limit, hd.nodup, hd.get?_iff, hd.defined_eq⟩, List.prefix_rfl⟩

theorem orderly_typeToken (h : HelperRef) : Orderly (h.typeToken r.access) :=
  (orderly_token r _).bind fun _ => orderly_token r _

theorem orderly_methodToken (h : HelperRef) (name : String) (s : MethodSig) :
    Orderly (h.methodToken r.access name s) :=
  (orderly_typeToken r h).bind fun _ => (orderly_known s.encode).bind fun _ => orderly_token r _

/-- So are all requests, whether they succeed or not. -/
theorem orderly_ask (q : HelperRequest) : Orderly (q.token r.access) := by
  cases q with
  | enter h => exact orderly_methodToken r h _ _
  | exit h ret => exact orderly_methodToken r h _ _
  | exceptionType h => exact (orderly_coreLibrary r).bind fun _ => orderly_token r _
  | localSignature h blob => exact orderly_token r _

/-- An answer was given by some desk on the way, which the last one has grown from. -/
theorem grown_askAll {retryLimit : Nat} (qs : List HelperRequest) {d : Desk τ}
    (hd : d.Kept retryLimit) :
    d.Grown retryLimit (r.askAll qs d).2 ∧
      ∀ q answer, (q, answer) ∈ (r.askAll qs d).1 → q ∈ qs ∧ ∃ d₁ d₂, d₁.Kept retryLimit ∧
        r.ask q d₁ = (answer, d₂) ∧ d₂.Grown retryLimit (r.askAll qs d).2 := by
  induction qs generalizing d with
  | nil => exact ⟨.refl hd, fun _ _ hmem => absurd hmem List.not_mem_nil⟩
  | cons q qs ih =>
    have hask := orderly_ask r q hd
    obtain ⟨hgrown, hanswers⟩ := ih hask.kept
    refine ⟨hask.trans hgrown, fun q' answer hmem => ?_⟩
    rcases List.mem_cons.mp hmem with heq | hmem
    · cases heq
      exact ⟨by simp, d, _, hd, rfl, hgrown⟩
    · obtain ⟨hq', h⟩ := hanswers q' answer hmem
      exact ⟨List.mem_cons_of_mem _ hq', h⟩

end

/-! ### What tokens stand for -/

/-- Tokens were issued as they should be: each is one of its row's table, and no other row of the
table has it. -/
structure Issued (rows : List (MetadataRow × Token)) : Prop where
  table : ∀ p ∈ rows, p.2.table = p.1.table
  fresh : rows.Pairwise fun p p' => p.1.table = p'.1.table → p.2 ≠ p'.2

namespace Desk

/-- The token is that of a row which was defined as the subject asks. -/
def Means (core : Token) (d : Desk τ) : HelperSubject → Token → Prop
  | .member assembly typeName name blob, token => ∃ scope parent,
    ⟨.assemblyRef assembly, .ok scope⟩ ∈ d.calls ∧ ⟨.typeRef scope typeName, .ok parent⟩ ∈ d.calls ∧
      ⟨.memberRef parent name blob, .ok token⟩ ∈ d.calls
  | .exceptionType, token => ⟨.typeRef core Primitive.object.name, .ok token⟩ ∈ d.calls
  | .locals blob, token => ⟨.localSignature blob, .ok token⟩ ∈ d.calls

variable {retryLimit : Nat} {core : Token} {d d' : Desk τ}

/-- It stays that of the row. -/
theorem Means.grown {subject : HelperSubject} {token : Token} (h : Means core d subject token)
    (hgrown : Grown retryLimit d d') : Means core d' subject token := by
  have hmem {c : DefineCall} (hc : c ∈ d.calls) : c ∈ d'.calls := hgrown.calls.subset hc
  cases subject with
  | member =>
    obtain ⟨scope, parent, hscope, hparent, hmember⟩ := h
    exact ⟨scope, parent, hmem hscope, hmem hparent, hmem hmember⟩
  | exceptionType => exact hmem h
  | locals => exact hmem h

/-- A row was defined once, so it has one token. -/
theorem Kept.token_unique (hd : d.Kept retryLimit) {row : MetadataRow} {token token' : Token}
    (h : ⟨row, .ok token⟩ ∈ d.calls) (h' : ⟨row, .ok token'⟩ ∈ d.calls) : token = token' := by
  have hget := hd.get?_iff_mem_calls.mpr h
  exact Option.some.inj (hget.symm.trans (hd.get?_iff_mem_calls.mpr h'))

/-- A subject has one token, whatever the chain of rows that leads to it. -/
theorem Means.unique (hd : d.Kept retryLimit) {subject : HelperSubject} {token token' : Token}
    (h : Means core d subject token) (h' : Means core d subject token') : token = token' := by
  cases subject with
  | member =>
    obtain ⟨scope, parent, hscope, hparent, hmember⟩ := h
    obtain ⟨scope', parent', hscope', hparent', hmember'⟩ := h'
    obtain rfl := hd.token_unique hscope hscope'
    obtain rfl := hd.token_unique hparent hparent'
    exact hd.token_unique hmember hmember'
  | exceptionType => exact hd.token_unique h h'
  | locals => exact hd.token_unique h h'

/-- A token that was issued belongs to one row. -/
theorem row_unique (hissued : Issued d.defined) {row row' : MetadataRow} {token : Token}
    (h : ⟨row, .ok token⟩ ∈ d.calls) (h' : ⟨row', .ok token⟩ ∈ d.calls) : row = row' := by
  have hrow := mem_defined.mpr h
  have hrow' := mem_defined.mpr h'
  have : Std.Symm fun p p' : MetadataRow × Token => p.1.table = p'.1.table → p.2 ≠ p'.2 :=
    ⟨fun _ _ hne heq => (hne heq.symm).symm⟩
  by_contra hne
  -- tables are told apart by their tokens, so the rows would be in one
  have htable : row.table = row'.table :=
    (hissued.table _ hrow).symm.trans (hissued.table _ hrow')
  exact hissued.fresh.forall hrow hrow' (fun heq => hne (congrArg Prod.fst heq)) htable rfl

/-- A token has one subject: from the member back to its type, and from there to the assembly,
each step leads to one row. -/
theorem Means.inj (hissued : Issued d.defined) {subject subject' : HelperSubject} {token : Token}
    (h : Means core d subject token) (h' : Means core d subject' token) : subject = subject' := by
  cases subject with
  | member =>
    obtain ⟨scope, parent, hscope, hparent, hmember⟩ := h
    cases subject' with
    | member =>
      obtain ⟨scope', parent', hscope', hparent', hmember'⟩ := h'
      -- from the member to its type, and on to the assembly
      obtain ⟨rfl, rfl, rfl⟩ := MetadataRow.memberRef.inj (row_unique hissued hmember hmember')
      obtain ⟨rfl, rfl⟩ := MetadataRow.typeRef.inj (row_unique hissued hparent hparent')
      obtain rfl := MetadataRow.assemblyRef.inj (row_unique hissued hscope hscope')
      rfl
    | exceptionType => cases row_unique hissued hmember h'
    | locals => cases row_unique hissued hmember h'
  | exceptionType =>
    cases subject' with
    | member =>
      obtain ⟨_, _, _, _, hmember'⟩ := h'
      cases row_unique hissued h hmember'
    | exceptionType => rfl
    | locals => cases row_unique hissued h h'
  | locals =>
    cases subject' with
    | member =>
      obtain ⟨_, _, _, _, hmember'⟩ := h'
      cases row_unique hissued h hmember'
    | exceptionType => cases row_unique hissued h h'
    | locals =>
      cases row_unique hissued h h'
      rfl

end Desk

/-! ### Signatures of helpers -/

open Reader TypeSig

/-- Bytes that are read back are parsed as what was encoded. -/
theorem MethodSig.parse_of_encode {s : MethodSig} {blob : List UInt8}
    (hreads : Reads MethodSig.read s.write s) (h : s.encode = .ok blob) :
    MethodSig.parse blob = .ok s := by
  obtain ⟨bytes, hbytes, hstart⟩ := hreads.start
  obtain rfl := Except.ok.inj (h.symm.trans hbytes)
  have hread := hstart 0 []
  rw [List.append_nil] at hread
  exact congrArg Prod.fst hread

/-- A static method with few parameters is read back if their types are. -/
theorem MethodSig.reads_static {ret : TypeSig} {params : List TypeSig}
    (hret : ReadsBack nestingLimit ret) (hparams : ∀ t ∈ params, ReadsBack nestingLimit t)
    (hlen : params.length ≤ Compressed.limit)
    (hlast : ∀ t, params.getLast? = some t → t.isSentinel = false) :
    Reads MethodSig.read (MethodSig.static ret params).write (.static ret params) := by
  have hregular : (MethodSig.static ret params).Regular :=
    { kind := (by decide : (0 : UInt8).toNat % kindRange ≠ localsKind)
      unmarked := fun _ => rfl
      generics_le := Nat.zero_le _
      last := hlast
      length_le := hlen }
  exact reads_readWith hregular (hret _ (Nat.le_refl _)) fun t ht => hparams t ht _ (Nat.le_refl _)

theorem TypeSig.readsBack_primitive (type : Primitive) :
    ReadsBack nestingLimit (.primitive type) := by
  have hback : ReadsBack 1 (.primitive type) :=
    .of_succ fun levels' _ => reads_primitive type levels'
  exact hback.mono (by decide)

namespace HelperRef

theorem parse_enterSignature {blob : List UInt8} (h : enterSignature.encode = .ok blob) :
    MethodSig.parse blob = .ok enterSignature := by
  refine MethodSig.parse_of_encode (MethodSig.reads_static (readsBack_primitive _) ?_ ?_ ?_) h
  · simpa using readsBack_primitive .i4
  · decide
  · rintro t ⟨⟩
    rfl

theorem parse_exitSignature {ret : Option TypeSig} (hret : ∀ t ∈ ret, ReadsBack nestingLimit t)
    {blob : List UInt8} (h : (exitSignature ret).encode = .ok blob) :
    MethodSig.parse blob = .ok (exitSignature ret) := by
  refine MethodSig.parse_of_encode (MethodSig.reads_static (readsBack_primitive _) ?_ ?_ ?_) h
  · intro t ht
    rcases List.mem_append.mp ht with ht | ht
    · exact hret t (Option.mem_toList.mp ht)
    · simp only [List.mem_cons, List.not_mem_nil, or_false] at ht
      rcases ht with rfl | rfl
      · exact readsBack_primitive .object
      · exact readsBack_primitive .i8
  · cases ret with
    | none => exact (by decide : 2 ≤ Compressed.limit)
    | some t => exact (by decide : 3 ≤ Compressed.limit)
  · intro t ht
    rw [List.getLast?_append] at ht
    cases ht
    rfl

end HelperRef

/-! ### What is answered -/

section

variable {r : Registrar τ} {retryLimit : Nat} {core : Token} {d d' : Desk τ} {token : Token}

theorem mem_calls_of_request {row : MetadataRow} (hd : d.Kept retryLimit)
    (hrun : (r.access.token row).run.run d = (.ok token, d')) : ⟨row, .ok token⟩ ∈ d'.calls := by
  have hserved := served_request r row hd.lock
  rw [show r.request row d = (.ok token, d') from hrun] at hserved
  cases hserved with
  | known hget => exact hd.get?_iff_mem_calls.mp hget
  | @recorded _ _ calls _ htried =>
    obtain ⟨whats, rfl⟩ := htried.calls_eq
    simp

/-- When the rows that lead to a method are there, the method is all that is asked for. -/
theorem run_methodToken {h : HelperRef} {name : String} {s : MethodSig} {scope parent : Token}
    {blob : List UInt8} {d₁ d₂ : Desk τ}
    (hscope : r.request (.assemblyRef h.assembly) d = (.ok scope, d₁))
    (hparent : r.request (.typeRef scope h.typeName) d₁ = (.ok parent, d₂))
    (hblob : s.encode = .ok blob) :
    (h.methodToken r.access name s).run.run d = r.request (.memberRef parent name blob) d₂ := by
  have htype : (h.typeToken r.access).run.run d = (.ok parent, d₂) :=
    (attempt_bind_of_ok hscope).trans hparent
  rw [HelperRef.methodToken, attempt_bind_of_ok htype, hblob]
  rfl

/-- The token of a method comes with the rows that lead to it. -/
theorem means_of_methodToken {h : HelperRef} {name : String} {s : MethodSig}
    (hd : d.Kept retryLimit)
    (hrun : (h.methodToken r.access name s).run.run d = (.ok token, d')) :
    ∃ blob, s.encode = .ok blob ∧
      d'.Means core (.member h.assembly h.typeName name blob) token := by
  obtain ⟨parent, d₂, hparent, hrun⟩ := attempt_bind_eq_ok.mp hrun
  obtain ⟨scope, d₁, hscope, hparent⟩ := attempt_bind_eq_ok.mp hparent
  obtain ⟨blob, hblob, hmember⟩ := attempt_mk_bind_eq_ok.mp hrun
  have hd₁ := orderly_token r (.assemblyRef h.assembly) hd
  rw [hscope] at hd₁
  have hd₂ := orderly_token r (.typeRef scope h.typeName) hd₁.kept
  rw [hparent] at hd₂
  have hd' := orderly_token r (.memberRef parent name blob) hd₂.kept
  rw [hmember] at hd'
  refine ⟨blob, hblob, scope, parent, ?_, ?_, mem_calls_of_request hd₂.kept hmember⟩
  · exact (hd₂.trans hd').calls.subset (mem_calls_of_request hd hscope)
  · exact hd'.calls.subset (mem_calls_of_request hd₁.kept hparent)

/-- A token that is given back means what it was asked for. -/
theorem means_of_ask {q : HelperRequest} (hd : d.Kept retryLimit)
    (hcore : ∀ host token, (r.coreLibrary host).1 = .ok token → token = core)
    (hrun : r.ask q d = (.ok token, d')) :
    ∃ subject, q.subject = .ok subject ∧ d'.Means core subject token := by
  cases q with
  | enter h =>
    obtain ⟨blob, hblob, hmeans⟩ := means_of_methodToken hd hrun
    exact ⟨_, bind_eq_ok.mpr ⟨blob, hblob, rfl⟩, hmeans⟩
  | exit h ret =>
    obtain ⟨blob, hblob, hmeans⟩ := means_of_methodToken hd hrun
    exact ⟨_, bind_eq_ok.mpr ⟨blob, hblob, rfl⟩, hmeans⟩
  | exceptionType h =>
    obtain ⟨scope, d₁, hscope, hrun⟩ := attempt_bind_eq_ok.mp hrun
    have hd₁ := orderly_coreLibrary r hd
    rw [hscope] at hd₁
    obtain rfl := hcore d.host scope (congrArg Prod.fst hscope)
    exact ⟨_, rfl, mem_calls_of_request hd₁.kept hrun⟩
  | localSignature h blob => exact ⟨_, rfl, mem_calls_of_request hd hrun⟩

end

/-- Tokens of helpers stand for the right members, after any requests for any helpers, of which
any may have failed.  The registrar issues a new token of the right table for each row that it
defines, and the core library has one token, which none of the assemblies defined here has; the
return types asked for come from signatures that were parsed.

A token for the entry or the exit is then that of a member defined with the method's name and
with bytes that are parsed as its signature, on the helper's type in the helper's assembly.  The
token for exceptions is that of the core library's class of objects, and no type of a helper has
it.  Two tokens are equal exactly if they were asked for the same subject. -/
theorem helper_tokens_denote (r : Registrar τ) (module : ModuleId) (retryLimit : Nat) (host : τ)
    (qs : List HelperRequest) (core : Token) (hreturns : ∀ q ∈ qs, q.ReturnsParsed)
    (hissued : Issued (r.askAll qs (.opened module retryLimit host)).2.defined)
    (hcore : ∀ host token, (r.coreLibrary host).1 = .ok token → token = core)
    (hforeign : ∀ assembly, (.assemblyRef assembly, core) ∉
      (r.askAll qs (.opened module retryLimit host)).2.defined) :
    let d := (r.askAll qs (.opened module retryLimit host)).2
    let answers := (r.askAll qs (.opened module retryLimit host)).1
    (∀ h token, (.enter h, .ok token) ∈ answers → ∃ blob,
      d.Means core (.member h.assembly h.typeName h.enterMethod blob) token ∧
        MethodSig.parse blob = .ok (.static (.primitive .i8) [.primitive .i4])) ∧
    (∀ h ret token, (.exit h ret, .ok token) ∈ answers → ∃ blob,
      d.Means core (.member h.assembly h.typeName h.exitMethod blob) token ∧
        MethodSig.parse blob = .ok (.static (.primitive .void)
          (ret.toList ++ [.primitive .object, .primitive .i8]))) ∧
    (∀ h token, (.exceptionType h, .ok token) ∈ answers → d.Means core .exceptionType token ∧
      ∀ assembly scope name, ⟨.assemblyRef assembly, .ok scope⟩ ∈ d.calls →
        ⟨.typeRef scope name, .ok token⟩ ∉ d.calls) ∧
    (∀ h blob token, (.localSignature h blob, .ok token) ∈ answers →
      d.Means core (.locals blob) token) ∧
    ∀ q q' token token', (q, .ok token) ∈ answers → (q', .ok token') ∈ answers →
      (token = token' ↔ q.subject = q'.subject) := by
  intro d answers
  obtain ⟨⟨hd, -⟩, hanswers⟩ := grown_askAll r qs (Desk.kept_opened module retryLimit host)
  have hmeans (q : HelperRequest) (token : Token) (hmem : (q, .ok token) ∈ answers) :
      ∃ subject, q.subject = .ok subject ∧ d.Means core subject token := by
    obtain ⟨-, d₁, d₂, hd₁, hrun, hgrown⟩ := hanswers q _ hmem
    obtain ⟨subject, hsubject, hmeans⟩ := means_of_ask hd₁ hcore hrun
    exact ⟨subject, hsubject, hmeans.grown hgrown⟩
  refine ⟨fun h token hmem => ?_, fun h ret token hmem => ?_, fun h token hmem => ?_,
    fun h blob token hmem => ?_, fun q q' token token' hmem hmem' => ?_⟩
  · obtain ⟨subject, hsubject, hmeans⟩ := hmeans _ _ hmem
    obtain ⟨blob, hblob, hsubject⟩ := bind_eq_ok.mp hsubject
    obtain rfl := Except.ok.inj hsubject
    exact ⟨blob, hmeans, HelperRef.parse_enterSignature hblob⟩
  · obtain ⟨subject, hsubject, hmeans⟩ := hmeans _ _ hmem
    obtain ⟨blob, hblob, hsubject⟩ := bind_eq_ok.mp hsubject
    obtain rfl := Except.ok.inj hsubject
    refine ⟨blob, hmeans, HelperRef.parse_exitSignature (fun t ht => ?_) hblob⟩
    obtain ⟨blob, s, hparse, rfl | rfl⟩ := hreturns _ (hanswers _ _ hmem).1 t ht
    · exact (MethodSig.ret_rereadable hparse).readsBack
    · exact (MethodSig.ret_rereadable hparse).unmodified
  · obtain ⟨subject, hsubject, hmeans⟩ := hmeans _ _ hmem
    obtain rfl := Except.ok.inj hsubject
    refine ⟨hmeans, fun assembly scope name hscope htype => ?_⟩
    obtain ⟨rfl, -⟩ := MetadataRow.typeRef.inj (Desk.row_unique hissued hmeans htype)
    exact hforeign assembly (Desk.mem_defined.mpr hscope)
  · obtain ⟨subject, hsubject, hmeans⟩ := hmeans _ _ hmem
    obtain rfl := Except.ok.inj hsubject
    exact hmeans
  · obtain ⟨subject, hsubject, hmeans₁⟩ := hmeans _ _ hmem
    obtain ⟨subject', hsubject', hmeans₂⟩ := hmeans _ _ hmem'
    rw [hsubject, hsubject']
    -- no two rows have the same token, and no row has two tokens
    constructor
    · rintro rfl
      exact congrArg Except.ok (hmeans₁.inj hissued hmeans₂)
    · intro heq
      obtain rfl := Except.ok.inj heq
      exact hmeans₁.unique hd hmeans₂

/-! ### Rows in numbers -/

/-- A registrar that numbers what it defines. -/
def numberingRegistrar : Registrar Nat where
  define row n := (.ok (Token.ofParts row.table n), n + 1)
  coreLibrary n := (.ok ⟨0x23000001⟩, n)

/-- The desk after one more row got its number. -/
def Desk.numbered (d : Desk Nat) (row : MetadataRow) : Desk Nat where
  cache := d.cache.record ⟨row, Token.ofParts row.table d.host, 1⟩
  host := d.host + 1
  calls := d.calls ++ [⟨row, .ok (Token.ofParts row.table d.host)⟩]

theorem Desk.get?_numbered (d : Desk Nat) (row row' : MetadataRow) :
    (d.numbered row).cache.get? row' =
      if row = row' then some (Token.ofParts row.table d.host) else d.cache.get? row' :=
  TokenCache.get?_record ..

theorem request_numbered {d : Desk Nat} {row : MetadataRow} (hlock : d.cache.lockBroken = false)
    (hget : d.cache.get? row = none) :
    numberingRegistrar.request row d = (.ok (Token.ofParts row.table d.host), d.numbered row) := by
  rw [request_of_new _ hlock hget]
  cases d.cache.retryLimit <;> rfl

/-- A helper with the usual names for its methods. -/
def plainHelper : HelperRef := { assembly := "Helpers", typeName := "Helpers.Probe" }

/-- The reference to its assembly. -/
def plainAssembly : MetadataRow := .assemblyRef "Helpers"

/-- The reference to its type. -/
def plainType : MetadataRow :=
  .typeRef (Token.ofParts Token.assemblyRefTable 2) "Helpers.Probe"

/-- The reference to the method at the entry. -/
def plainEnter : MetadataRow :=
  .memberRef (Token.ofParts Token.typeRefTable 3) "OnMethodBegin" [0, 1, 0x0A, 8]

/-- The reference to the method at the exit, which is handed a string. -/
def plainExit : MetadataRow :=
  .memberRef (Token.ofParts Token.typeRefTable 3) "OnMethodEnd" [0, 3, 1, 0x0E, 0x1C, 0x0A]

/-- The entry defines three rows and the exit only a fourth one. -/
theorem helper_tokens_denote_numberingRegistrar :
    let exit : HelperRequest := .exit plainHelper (some (.primitive .string))
    let d := (numberingRegistrar.askAll [.enter plainHelper, exit] (.opened 1 0 2)).2
    let enterToken := Token.ofParts Token.memberRefTable 4
    let exitToken := Token.ofParts Token.memberRefTable 5
    (∃ blob, d.Means ⟨0x23000001⟩ (.member "Helpers" "Helpers.Probe" "OnMethodBegin" blob)
        enterToken ∧
      MethodSig.parse blob = .ok (.static (.primitive .i8) [.primitive .i4])) ∧
    (∃ blob, d.Means ⟨0x23000001⟩ (.member "Helpers" "Helpers.Probe" "OnMethodEnd" blob)
        exitToken ∧
      MethodSig.parse blob = .ok (.static (.primitive .void)
        [.primitive .string, .primitive .object, .primitive .i8])) ∧
    (HelperRequest.enter plainHelper).subject ≠ exit.subject := by
  intro exit d enterToken exitToken
  let opened : Desk Nat := .opened 1 0 2
  let entered := ((opened.numbered plainAssembly).numbered plainType).numbered plainEnter
  have hopened (row : MetadataRow) : opened.cache.get? row = none := by
    simp [opened, Desk.opened, TokenCache.get?]
  have henter : numberingRegistrar.ask (.enter plainHelper) opened = (.ok enterToken, entered) := by
    have hassembly : numberingRegistrar.request plainAssembly opened =
        (.ok (Token.ofParts Token.assemblyRefTable 2), opened.numbered plainAssembly) :=
      request_numbered rfl (hopened _)
    have htype : numberingRegistrar.request plainType (opened.numbered plainAssembly) =
        (.ok (Token.ofParts Token.typeRefTable 3),
          (opened.numbered plainAssembly).numbered plainType) :=
      request_numbered rfl (by simp [Desk.get?_numbered, plainAssembly, plainType, hopened])
    have hmember : numberingRegistrar.request plainEnter
          ((opened.numbered plainAssembly).numbered plainType) = (.ok enterToken, entered) :=
      request_numbered rfl (by
        simp [Desk.get?_numbered, plainAssembly, plainType, plainEnter, hopened])
    have hblob : HelperRef.enterSignature.encode = .ok [0, 1, 0x0A, 8] := rfl
    exact (run_methodToken (h := plainHelper) hassembly htype hblob).trans hmember
  have hexit :
      numberingRegistrar.ask exit entered = (.ok exitToken, entered.numbered plainExit) := by
    have hassembly : numberingRegistrar.request plainAssembly entered =
        (.ok (Token.ofParts Token.assemblyRefTable 2), entered) :=
      request_of_known _ (by
        simp [entered, Desk.get?_numbered, plainAssembly, plainType, plainEnter]
        rfl)
    have htype : numberingRegistrar.request plainType entered =
        (.ok (Token.ofParts Token.typeRefTable 3), entered) :=
      request_of_known _ (by
        simp [entered, Desk.get?_numbered, plainAssembly, plainType, plainEnter]
        rfl)
    have hmember : numberingRegistrar.request plainExit entered =
        (.ok exitToken, entered.numbered plainExit) :=
      request_numbered rfl (by
        simp [entered, Desk.get?_numbered, plainAssembly, plainType, plainEnter, plainExit,
          hopened])
    have hblob : (HelperRef.exitSignature (some (.primitive .string))).encode =
      .ok [0, 3, 1, 0x0E, 0x1C, 0x0A] := rfl
    exact (run_methodToken (h := plainHelper) hassembly htype hblob).trans hmember
  have hall : numberingRegistrar.askAll [.enter plainHelper, exit] opened =
      ([(.enter plainHelper, .ok enterToken), (exit, .ok exitToken)],
        entered.numbered plainExit) := by
    simp only [Registrar.askAll, henter, hexit]
  have hdefined : d.defined = [(plainAssembly, Token.ofParts Token.assemblyRefTable 2),
      (plainType, Token.ofParts Token.typeRefTable 3), (plainEnter, enterToken),
      (plainExit, exitToken)] := by
    rw [show d = entered.numbered plainExit from congrArg Prod.snd hall]
    rfl
  have hissued : Issued d.defined := by
    rw [hdefined]
    exact ⟨by decide, by decide⟩
  have hforeign (assembly : String) :
      (MetadataRow.assemblyRef assembly, (⟨0x23000001⟩ : Token)) ∉ d.defined := by
    have hne : (⟨0x23000001⟩ : Token) ≠ Token.ofParts Token.assemblyRefTable 2 := by decide
    rw [hdefined]
    simp [plainAssembly, plainType, plainEnter, plainExit, hne]
  have hreturns : ∀ q ∈ [.enter plainHelper, exit], q.ReturnsParsed := by
    have hparse : MethodSig.parse [0, 0, 0x0E] = .ok (.static (.primitive .string) []) := rfl
    have hexit : exit.ReturnsParsed := by
      intro t ht
      obtain rfl := Option.some.inj ht
      exact ⟨_, _, hparse, .inl rfl⟩
    simpa [HelperRequest.ReturnsParsed] using hexit
  obtain ⟨hentered, hexited, -, -, hsame⟩ := helper_tokens_denote numberingRegistrar 1 0 2
    [.enter plainHelper, exit] ⟨0x23000001⟩ hreturns hissued
    (fun _ _ h => (Except.ok.inj h).symm) hforeign
  have hfirst : (.enter plainHelper, .ok enterToken) ∈
      (numberingRegistrar.askAll [.enter plainHelper, exit] opened).1 := by simp [hall]
  have hsecond : (exit, .ok exitToken) ∈
      (numberingRegistrar.askAll [.enter plainHelper, exit] opened).1 := by simp [hall]
  have hne : enterToken ≠ exitToken := by decide
  exact ⟨hentered _ _ hfirst, hexited _ _ _ hsecond,
    fun heq => hne ((hsame _ _ _ _ hfirst hsecond).mpr heq)⟩

end CilProbe
