/-
CilProbe/Proofs/Engine/Mirrors.lean

Loading a module or compiling a function, in two states that match.  Computations `Mirrors` each
other if they ask the same questions, all of them about one module, change nothing that has to
do with another, and leave states that match again, whatever happens to the states while a
question is pending, as long as they match behind it.  That is how the engine deals with the
events of a module (`mirrors_handle`).
-/
import CilProbe.Proofs.Engine.Cues

namespace CilProbe

open EngineState

/-- A function is in the module that it is in. -/
def Runtime.Truthful (r : Runtime) (q : Query) (a : q.Answer) : Prop :=
  match q, a with
  | .functionInfo function, .ok info => info.module = r.home function
  | _, _ => True

theorem Runtime.truthful_answer (r : Runtime) (calls : List Call) (q : Query) :
    r.Truthful q (r.answer calls q) := by
  cases q with
  | functionInfo function =>
    cases hinfo : r.answer calls (.functionInfo function) with
    | ok info => exact r.home_reply _ function info hinfo
    | error err => trivial
  | _ => trivial

namespace Proc

section

variable (r : Runtime) (m : ModuleId) {α β : Type}

/-- Computations that do the same, as far as a module is concerned, and do nothing else; their
results go together. -/
inductive Mirrors (V : Pairing → α → β → Prop) :
    Pairing → EngineState → EngineState → Proc EngineState α → Proc EngineState β → Prop
  | done {π s s' a b} : V π a b → Mirrors V π s s' (.done a) (.done b)
  | read {π s s' next next'} : Mirrors V π s s' (next s) (next' s') →
    Mirrors V π s s' (.read next) (.read next')
  | write {π ρ s s' t t' next next'} : π.Within ρ → t.Matches m ρ t' → Changes m s t →
    Changes m s' t' → Mirrors V ρ t t' next next' →
    Mirrors V π s s' (.write t next) (.write t' next')
  | ask {π s s' q next next'} : r.subject q = some m →
    (∀ a ρ t t', r.Truthful q a → π.Within ρ → t.Matches m ρ t' →
      Mirrors V ρ t t' (next a) (next' a)) → Mirrors V π s s' (.ask q next) (.ask q next')

/-- What is left of such computations at their next question. -/
inductive Rest.Mirrors (V : Pairing → α → β → Prop) (π : Pairing) :
    Rest EngineState α → Rest EngineState β → Prop
  | done {a b} : V π a b → Mirrors V π (.done a) (.done b)
  | ask {q next next'} : r.subject q = some m →
    (∀ a ρ t t', r.Truthful q a → π.Within ρ → t.Matches m ρ t' →
      Proc.Mirrors r m V ρ t t' (next a) (next' a)) → Mirrors V π (.ask q next) (.ask q next')

end

namespace Mirrors

variable {r : Runtime} {m : ModuleId} {α β α' β' : Type} {V : Pairing → α → β → Prop}
  {V' : Pairing → α' → β' → Prop} {π : Pairing} {s s' : EngineState}

/-- One computation behind the other. -/
theorem bind {p : Proc EngineState α} {p' : Proc EngineState β} {f : α → Proc EngineState α'}
    {f' : β → Proc EngineState β'} (hp : Mirrors r m V π s s' p p') (hs : s.Matches m π s')
    (hf : ∀ ρ t t' a b, π.Within ρ → t.Matches m ρ t' → V ρ a b →
      Mirrors r m V' ρ t t' (f a) (f' b)) : Mirrors r m V' π s s' (p.bind f) (p'.bind f') := by
  induction hp with
  | done hV => exact hf _ _ _ _ _ (.refl _) hs hV
  | read _ ih => exact .read (ih hs hf)
  | write hwithin ht hchanges hchanges' _ ih =>
    exact .write hwithin ht hchanges hchanges' <|
      ih ht fun ρ t t' a b hρ => hf ρ t t' a b (hwithin.trans hρ)
  | ask hq _ ih =>
    exact .ask hq fun a ρ t t' ha hρ ht =>
      ih a ρ t t' ha hρ ht ht fun σ u u' b b' hσ => hf σ u u' b b' (hρ.trans hσ)

/-- Up to their next question both computations change the states alike. -/
theorem settle {p : Proc EngineState α} {p' : Proc EngineState β} (hp : Mirrors r m V π s s' p p')
    (hs : s.Matches m π s') : ∃ ρ, π.Within ρ ∧ (p.settle s).2.Matches m ρ (p'.settle s').2 ∧
      Changes m s (p.settle s).2 ∧ Changes m s' (p'.settle s').2 ∧
        Rest.Mirrors r m V ρ (p.settle s).1 (p'.settle s').1 := by
  induction hp with
  | done hV => exact ⟨_, .refl _, hs, .refl m _, .refl m _, .done hV⟩
  | read _ ih => exact ih hs
  | write hwithin ht hchanges hchanges' _ ih =>
    obtain ⟨ρ, hρ, hmatches, hleft, hright, hrest⟩ := ih ht
    exact ⟨ρ, hwithin.trans hρ, hmatches, hchanges.trans hleft, hchanges'.trans hright, hrest⟩
  | ask hq hnext _ => exact ⟨_, .refl _, hs, .refl m _, .refl m _, .ask hq hnext⟩

end Mirrors

end Proc

/-! ### Attempts -/

/-- Both fail with the same error, or both succeed and the results go together. -/
inductive Agree {α β : Type} (V : α → β → Prop) : Except Error α → Except Error β → Prop
  | ok {a b} : V a b → Agree V (.ok a) (.ok b)
  | error (err : Error) : Agree V (.error err) (.error err)

namespace Engine

section Attempts

variable (r : Runtime) (m : ModuleId) {α β α' β' : Type} {π : Pairing} {s s' : EngineState}

/-- Attempts that do the same, as far as a module is concerned, and do nothing else. -/
def Mirrors (V : Pairing → α → β → Prop) (π : Pairing) (s s' : EngineState) (x : EngineAttempt α)
    (x' : EngineAttempt β) : Prop := Proc.Mirrors r m (fun π => Agree (V π)) π s s' x.run x'.run

variable {r m} {V : Pairing → α → β → Prop} {V' : Pairing → α' → β' → Prop}

namespace Mirrors

theorem bind {x : EngineAttempt α} {x' : EngineAttempt β} {f : α → EngineAttempt α'}
    {f' : β → EngineAttempt β'} (hx : Mirrors r m V π s s' x x') (hs : s.Matches m π s')
    (hf : ∀ ρ t t' a b, π.Within ρ → t.Matches m ρ t' → V ρ a b →
      Mirrors r m V' ρ t t' (f a) (f' b)) : Mirrors r m V' π s s' (x >>= f) (x' >>= f') := by
  refine Proc.Mirrors.bind hx hs fun ρ t t' a b hρ ht hab => ?_
  cases hab with
  | ok hab => exact hf ρ t t' _ _ hρ ht hab
  | error err => exact .done (.error err)

theorem pure {a : α} {b : β} (h : V π a b) : Mirrors r m V π s s' (Pure.pure a) (Pure.pure b) :=
  .done (.ok h)

/-- A failure is a result as well. -/
theorem lift {x x' : EngineAttempt α} (hx : Mirrors r m (fun _ => Eq) π s s' x x')
    (hs : s.Matches m π s') :
    Mirrors r m (fun _ => Eq) π s s' (ExceptT.lift x.run) (ExceptT.lift x'.run) := by
  refine Proc.Mirrors.bind hx hs fun ρ t t' a b _ _ hab => ?_
  cases hab with
  | ok hab => exact .done (.ok (congrArg Except.ok hab))
  | error err => exact .done (.ok rfl)

/-- Both look at their states. -/
theorem get_bind {f : EngineState → EngineAttempt α} {f' : EngineState → EngineAttempt β}
    (h : Mirrors r m V π s s' (f s) (f' s')) :
    Mirrors r m V π s s' (get >>= f) (get >>= f') := .read h

theorem known (x : Except Error α) :
    Mirrors r m (fun _ => Eq) π s s' (Engine.known x) (Engine.known x) := by
  cases x with
  | ok a => exact .done (.ok rfl)
  | error err => exact .done (.error err)

theorem demand {q : Query} (hq : r.subject q = some m) (answer : q.Answer → Except Error α) :
    Mirrors r m (fun _ b b' => b = b' ∧ ∃ a, r.Truthful q a ∧ answer a = .ok b) π s s'
      (Engine.demand q answer) (Engine.demand q answer) := by
  refine .ask hq fun a ρ t t' ha _ _ => ?_
  show Proc.Mirrors r m _ ρ t t' (.done (answer a)) (.done (answer a))
  cases hanswer : answer a with
  | ok b => exact .done (.ok ⟨rfl, a, ha, hanswer⟩)
  | error err => exact .done (.error err)

end Mirrors

/-- Attempts with the same results, from wherever the states match. -/
theorem closed_mirrors (r : Runtime) (m : ModuleId) (π : Pairing) :
    Attempt.Closed fun α (x x' : EngineAttempt α) => ∀ ρ t t', π.Within ρ → t.Matches m ρ t' →
      Mirrors r m (fun _ => Eq) ρ t t' x x' where
  known x _ _ _ _ _ := .known x
  bind hx hf ρ t t' hρ ht := (hx ρ t t' hρ ht).bind ht fun σ u u' a _ hσ hu hab =>
    hab ▸ hf a σ u u' (hρ.trans hσ) hu

end Attempts

/-! ### Rows -/

section Rows

variable {r : Runtime} {m : ModuleId} {c d : CacheId} (row : MetadataRow)

theorem mirrors_defineWithin (retries : Nat) : ∀ made ρ t t',
    Proc.Mirrors r m (fun _ => Eq) ρ t t' ((moduleAccess m c).defineWithin row retries made)
      ((moduleAccess m d).defineWithin row retries made) := by
  induction retries with
  | zero => exact fun made ρ t t' => .ask rfl fun a _ _ _ _ _ _ => .done rfl
  | succ retries ih =>
    intro made ρ t t'
    refine .ask rfl fun a ρ t t' _ _ _ => ?_
    show Proc.Mirrors r m _ ρ t t' (Proc.bind (.done a) _) (Proc.bind (.done a) _)
    rw [Proc.bind, Proc.bind]
    split
    · exact .done rfl
    · exact ih (made + 1) ρ t t'
    · exact .done rfl

/-- A row is looked up in token caches that go together. -/
theorem mirrors_token {π : Pairing} (hcd : π.caches c d) (ρ : Pairing) (s s' : EngineState)
    (hρ : π.Within ρ) (hs : s.Matches m ρ s') :
    Mirrors r m (fun _ => Eq) ρ s s' ((moduleAccess m c).token row)
      ((moduleAccess m d).token row) := by
  show Proc.Mirrors r m _ ρ s s' ((moduleAccess m c).token row).run
    ((moduleAccess m d).token row).run
  rw [token_eq, token_eq]
  refine .read ?_
  dsimp only
  -- whether the row is there already, and whether there can be more, is the same in both
  rw [← hs.cache_eq (hρ.2 hcd)]
  split
  · exact .done (.ok rfl)
  · exact .done (.error _)
  · refine (mirrors_defineWithin row _ 0 ρ s s').bind hs fun σ t t' a b hσ ht hab => ?_
    subst hab
    cases a with
    | error err => exact .done (.error err)
    | ok made =>
      have hcd := hσ.2 (hρ.2 hcd)
      obtain ⟨k, hk, hk', hm⟩ := ht.caches hcd
      have hm' : k.module = m := hm
      subst hm'
      exact .read (.write (.refl σ) (ht.record hcd _) (changes_record hk _) (changes_record hk' _)
        (.done (.ok rfl)))

end Rows

/-! ### Compiling -/

section Compiling

variable {r : Runtime} {m : ModuleId} {π : Pairing} {s s' : EngineState}

/-- A method that was found in two states. -/
structure Subject.Same (m : ModuleId) (π : Pairing) (x x' : Subject) : Prop where
  found : Recalls m π (x.id, x.record) (x'.id, x'.record)
  props : x.props = x'.props
  descriptor : x.descriptor = x'.descriptor

theorem Subject.Same.within {ρ : Pairing} {x x' : Subject} (h : Subject.Same m π x x')
    (hρ : π.Within ρ) : Subject.Same m ρ x x' := ⟨h.found.within hρ, h.props, h.descriptor⟩

theorem mirrors_locate {function : FunctionId} (hfunction : r.home function = m)
    (hs : s.Matches m π s') :
    Mirrors r m (fun π => Option.Rel fun x x' => Recalls m π (x.1, x.2.1) (x'.1, x'.2.1) ∧
      x.2.2 = x'.2.2) π s s' (locate function) (locate function) := by
  have hsubject : r.subject (.functionInfo function) = some m := congrArg some hfunction
  refine (Mirrors.demand hsubject id).bind hs fun ρ t t' info info' hρ ht hinfo => ?_
  obtain ⟨rfl, answer, htruthful, hanswer⟩ := hinfo
  obtain rfl : answer = .ok info := hanswer
  have hmodule : info.module = m := htruthful.trans hfunction
  refine .get_bind ?_
  have hfind := ht.find?
  rw [← hmodule] at hfind ⊢
  generalize t.find? info.module = x, t'.find? info.module = x' at hfind ⊢
  cases hfind with
  | none => exact .pure .none
  | @some x x' hfound =>
    obtain ⟨-, -, hcandidates, hopen⟩ := ModuleRecord.same_of_plain hfound.plain
    dsimp only
    rw [← hcandidates, ← hopen]
    split
    · exact .pure .none
    · exact .pure (.some ⟨hfound, rfl⟩)

/-- The same rule is selected. -/
theorem mirrors_selectRule (e : Engine) {x x' : RecordId × ModuleRecord} (hx : Recalls m π x x')
    (token : Token) (hs : s.Matches m π s') :
    Mirrors r m
      (fun π => Option.Rel (Option.Rel fun y y' => Subject.Same m π y.1 y'.1 ∧ y.2 = y'.2)) π s s'
      (e.selectRule x.1 x.2 token) (e.selectRule x'.1 x'.2 token) := by
  obtain ⟨hmodule, hidentity, hcandidates, -⟩ := ModuleRecord.same_of_plain hx.plain
  have hsubject : r.subject (.metadata x.2.module) = some m := congrArg some hx.module
  unfold selectRule
  rw [← hmodule, ← hidentity, ← hcandidates]
  refine (Mirrors.demand hsubject .ok).bind hs fun ρ t t' view _ hρ ht hview => ?_
  obtain ⟨rfl, -⟩ := hview
  refine (Mirrors.known _).bind ht fun σ u u' props _ hσ hu hprops => ?_
  obtain rfl := hprops
  split
  · exact .pure .none
  refine (Mirrors.known _).bind hu fun τ v v' descriptor _ hτ hv hdescriptor => ?_
  obtain rfl := hdescriptor
  refine .pure (.some ?_)
  generalize Rule.select _ _ = rule
  cases rule with
  | none => exact .none
  | some rule => exact .some ⟨⟨hx.within (hρ.trans (hσ.trans hτ)), rfl, rfl⟩, rfl⟩

section Subject

variable {x x' : Subject} (hx : Subject.Same m π x x') (hs : s.Matches m π s')
include hx hs

/-- The method is claimed in both states, or it was claimed before in both. -/
theorem mirrors_claim (rule : Rule) :
    Mirrors r m (fun _ => Eq) π s s' (claim x rule) (claim x' rule) := by
  obtain ⟨hwon, hmatches⟩ := hs.claim hx.found.records x.props.token rule.integration
  obtain ⟨y, y', hy, hy', hm, hplain, -⟩ := hs.records hx.found.records
  obtain rfl := hm
  have hm' : y'.module = y.module := (ModuleRecord.same_of_plain hplain).1.symm
  have hright := hm' ▸ changes_claim hy' x.props.token rule.integration
  unfold claim
  rw [← hx.props]
  refine .read (.write (.refl π) hmatches (changes_claim hy _ _) hright ?_)
  rw [hwon]
  exact .done (.ok rfl)

theorem mirrors_readMethod :
    Mirrors r m (fun _ => Eq) π s s' (readMethod x) (readMethod x') := by
  obtain ⟨hmodule, -⟩ := ModuleRecord.same_of_plain hx.found.plain
  have hbody : r.subject (.readBody x.record.module x.props.token) = some m :=
    congrArg some hx.found.module
  have hmetadata : r.subject (.metadata x.record.module) = some m := congrArg some hx.found.module
  unfold readMethod
  rw [← hmodule, ← hx.props]
  refine (Mirrors.demand hbody id).bind hs fun ρ t t' body _ hρ ht hanswer => ?_
  obtain ⟨rfl, -⟩ := hanswer
  refine (Mirrors.known _).bind ht fun σ u u' header _ hσ hu hheader => ?_
  obtain rfl := hheader
  split
  · exact .pure rfl
  refine (Mirrors.demand hmetadata .ok).bind hu fun τ v v' view _ hτ hv hview => ?_
  obtain ⟨rfl, -⟩ := hview
  refine (Mirrors.known _).bind hv fun _ _ _ locals _ _ _ hlocals => ?_
  obtain rfl := hlocals
  exact .pure rfl

theorem mirrors_probing (e : Engine) (rule : Rule) (data locals : List UInt8) :
    Mirrors r m (fun _ => Eq) π s s' (e.probing x rule data locals)
      (e.probing x' rule data locals) := by
  obtain ⟨hmodule, -⟩ := ModuleRecord.same_of_plain hx.found.plain
  have hrequest : request x rule data locals = request x' rule data locals := by
    unfold request
    rw [hx.props, hx.descriptor]
  have hcore : ∀ ρ t t', π.Within ρ → t.Matches m ρ t' → Mirrors r m (fun _ => Eq) ρ t t'
      (ExceptT.mk (moduleAccess m x.record.cache).coreLibrary)
      (ExceptT.mk (moduleAccess m x'.record.cache).coreLibrary) := by
    refine fun ρ t t' _ _ => .ask rfl fun view σ u u' _ _ _ => ?_
    show Proc.Mirrors r m _ σ u u' (.done view.coreLibrary) (.done view.coreLibrary)
    cases view.coreLibrary with
    | ok token => exact .done (.ok rfl)
    | error err => exact .done (.error err)
  unfold probing
  rw [← hmodule, ← hrequest, hx.found.module]
  exact closed_probe_tokens (closed_mirrors r m π) (fun row => mirrors_token row hx.found.caches)
    rule.helper hcore e.passLimit _ π s s' (.refl π) hs

theorem mirrors_check (e : Engine) (body : List UInt8) :
    Mirrors r m (fun _ => Eq) π s s' (e.check x body) (e.check x' body) := by
  obtain ⟨hmodule, -⟩ := ModuleRecord.same_of_plain hx.found.plain
  have hmetadata : r.subject (.metadata x.record.module) = some m := congrArg some hx.found.module
  unfold check
  rw [← hmodule, ← hx.descriptor]
  dsimp only
  split
  · exact .pure rfl
  · refine (Mirrors.known _).bind hs fun _ _ _ _ _ _ _ _ => ?_
    exact .pure rfl
  · refine (Mirrors.demand hmetadata .ok).bind hs fun ρ t t' view _ hρ ht hview => ?_
    obtain ⟨rfl, -⟩ := hview
    exact (Mirrors.known _).bind ht fun _ _ _ _ _ _ _ _ => .pure rfl

theorem mirrors_install (body : List UInt8) :
    Mirrors r m (fun _ => Eq) π s s' (install x body) (install x' body) := by
  obtain ⟨hmodule, -⟩ := ModuleRecord.same_of_plain hx.found.plain
  have hinstall : r.subject (.install x.record.module x.props.token body) = some m :=
    congrArg some hx.found.module
  unfold install
  rw [← hmodule, ← hx.props]
  refine .get_bind ?_
  rw [← hs.cache_eq hx.found.caches, ← hs.tornDown]
  refine (Mirrors.known _).bind hs fun ρ t t' _ _ hρ ht _ => ?_
  split
  · exact .pure rfl
  · exact (Mirrors.demand hinstall id).bind ht fun _ _ _ _ _ _ _ _ => .pure rfl

theorem mirrors_instrument (e : Engine) (rule : Rule) :
    Mirrors r m (fun _ => Eq) π s s' (e.instrument x rule) (e.instrument x' rule) := by
  refine (mirrors_readMethod hx hs).bind hs fun ρ t t' a _ hρ ht ha => ?_
  obtain rfl := ha
  have hx := hx.within hρ
  have hlifted := (mirrors_probing (r := r) hx ht e rule a.1 a.2).lift ht
  refine hlifted.bind ht fun σ u u' attempt _ hσ hu hsame => ?_
  obtain rfl := hsame
  have hx := hx.within hσ
  rcases attempt with reason | ⟨method | -⟩
  · show Mirrors r m _ σ u u' (if reason.isDecline then _ else _)
      (if reason.isDecline then _ else _)
    split
    · exact .pure rfl
    · exact .done (.error reason)
  · exact (mirrors_check hx hu e method.body).bind hu fun τ v v' _ _ hτ hv _ =>
      mirrors_install (hx.within hτ) hv method.body
  · exact .pure rfl

end Subject

theorem mirrors_compile (e : Engine) {function : FunctionId} (hfunction : r.home function = m)
    (hs : s.Matches m π s') :
    Mirrors r m (fun _ => Eq) π s s' (e.compile function) (e.compile function) := by
  unfold compile
  refine (mirrors_locate hfunction hs).bind hs fun ρ t t' found found' hρ ht hfound => ?_
  cases hfound with
  | none => exact .pure rfl
  | @some x x' hx =>
    obtain ⟨hx, htoken⟩ := hx
    dsimp only
    rw [← htoken]
    refine (mirrors_selectRule e hx x.2.2 ht).bind ht fun σ u u' y y' hσ hu hy => ?_
    rcases hy with ⟨⟨hy, hrule⟩ | -⟩ | -
    · dsimp only
      rw [← hrule]
      refine (mirrors_claim hy hu _).bind hu fun τ v v' won _ hτ hv hwon => ?_
      obtain rfl := hwon
      split
      · exact mirrors_instrument (hy.within hτ) hv e _
      · exact .pure rfl
    · exact .pure rfl
    · exact .pure rfl

/-! ### Events -/

/-- The outcome of a compilation is counted. -/
theorem matches_countResult (hs : s.Matches m π s') (a : Except Error (Option MethodOutcome)) :
    (countResult a s).Matches m π (countResult a s') := by
  rcases a with err | - | outcome
  · exact hs.counts
  · exact hs
  · exact hs.counts

theorem changes_countResult (m : ModuleId) (s : EngineState)
    (a : Except Error (Option MethodOutcome)) : Changes m s (countResult a s) := by
  intro m' _
  rcases a with err | - | outcome
  · exact spares_counts m' s
  · exact .refl m' s
  · exact spares_counts m' s

/-- A module is loaded in both states. -/
theorem mirrors_loadModule (e : Engine) (hs : s.Matches m π s') :
    Mirrors r m (fun _ => Eq) π s s' (e.loadModule m) (e.loadModule m) := by
  have henroll : ∀ ρ t t' info, t.Matches m ρ t' → Mirrors r m (fun _ => Eq) ρ t t'
      (modify fun s => enroll s m info
        (e.registry.candidatesFor ⟨info.assemblyName, info.assemblyVersion⟩))
      (modify fun s => enroll s m info
        (e.registry.candidatesFor ⟨info.assemblyName, info.assemblyVersion⟩)) := by
    intro ρ t t' info ht
    obtain ⟨σ, hσ, henrolled⟩ := ht.enroll info
      (e.registry.candidatesFor ⟨info.assemblyName, info.assemblyVersion⟩)
    exact .read (.write hσ henrolled (changes_enroll _ _ _ _) (changes_enroll _ _ _ _)
      (.done (.ok rfl)))
  have hinfo : r.subject (.moduleInfo m) = some m := rfl
  have hopen : r.subject (.openMetadata m) = some m := rfl
  unfold loadModule
  refine (Mirrors.demand hinfo id).bind hs fun ρ t t' info _ hρ ht hinfo => ?_
  obtain ⟨rfl, -⟩ := hinfo
  dsimp only
  split
  · exact henroll ρ t t' info ht
  · exact (Mirrors.demand hopen id).bind ht fun σ u u' _ _ hσ hu _ => henroll σ u u' info hu

/-- The events of a module are dealt with alike in both states. -/
theorem mirrors_act (e : Engine) {event : Event} (hevent : r.module? event = some m)
    (hs : s.Matches m π s') :
    Proc.Mirrors r m (fun _ => Eq) π s s' (e.act event) (e.act event) := by
  cases event with
  | moduleLoaded m' status =>
    obtain rfl : m' = m := Option.some.inj hevent
    show Proc.Mirrors r m' _ π s s' (if status.isOk then _ else _) (if status.isOk then _ else _)
    split
    · exact Proc.Mirrors.bind (mirrors_loadModule e hs) hs fun _ _ _ _ _ _ _ _ => .done rfl
    · exact .done rfl
  | moduleUnloading m' =>
    obtain rfl : m' = m := Option.some.inj hevent
    exact .read (.write (.refl π) (hs.remove m') (changes_remove m' s) (changes_remove m' s')
      (.done rfl))
  | compiling function mayBlock =>
    have hcompile := mirrors_compile e (Option.some.inj hevent) hs
    refine Proc.Mirrors.bind hcompile hs fun ρ t t' a b hρ ht hab => ?_
    obtain rfl : a = b := by
      cases hab with
      | ok hab => exact congrArg Except.ok hab
      | error err => rfl
    exact .read (.write (.refl ρ) (matches_countResult ht a) (changes_countResult m t a)
      (changes_countResult m t' a) (.done rfl))
  | assemblyUnloading a => cases hevent
  | shuttingDown => cases hevent

/-- And so they are once the engine is stopped, which it is in both states or in neither. -/
theorem mirrors_handle (e : Engine) {event : Event} (hevent : r.module? event = some m)
    (hs : s.Matches m π s') :
    Proc.Mirrors r m (fun _ => Eq) π s s' (e.handle event) (e.handle event) := by
  rw [handle_eq]
  refine .read ?_
  rw [← hs.tornDown]
  split
  · exact .done rfl
  · have hcounted : (s.countEvent event.kind).Matches m π (s'.countEvent event.kind) := hs.counts
    refine .read (.write (.refl π) hcounted (fun m' _ => spares_counts m' s)
      (fun m' _ => spares_counts m' s') ?_)
    exact (mirrors_act e hevent hcounted).bind hcounted fun _ _ _ _ _ _ _ _ => .done rfl

end Compiling

end Engine

end CilProbe
