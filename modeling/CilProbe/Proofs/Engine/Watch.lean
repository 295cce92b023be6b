/-
CilProbe/Proofs/Engine/Watch.lean

One method, watched while an engine runs.  `Watch.Intact` is what holds of every world on
the way: of the bodies accepted for the method there is at most one beyond those at the
start, and as long as the engine is not stopped that body is one that it would recognise.

`Watch.Keeps` is about two worlds and the course between them.  It assumes of the events
delivered on the way that each of them, by itself, keeps the world intact, that those which
are delivered while the module's writer lock is held leave the method and the module's rows
alone, and, where the course itself has a body accepted for the method, that so do those
which are delivered while it waits for metadata of the module, as far as the method goes; then
the same holds of the course.  It composes, so what is left to look at are the steps: an
answer, a row that is put in a token cache, and an installation.
-/
import CilProbe.Proofs.Engine.Settled
import CilProbe.Proofs.Engine.Steady

namespace CilProbe

open Engine

/-- Whether a question is asked under the writer lock of a module: rows are defined and bodies
are installed under it. -/
def Query.Locks (m : ModuleId) : Query → Prop
  | .define m' _ | .install m' _ _ => m' = m
  | _ => False

/-- A method that is watched, on an engine that is attached to a runtime. -/
structure Watch {τ : Type} (h : Host τ) where
  /-- The runtime's account of installations. -/
  ledger : h.Ledger
  /-- The engine. -/
  engine : Engine
  /-- The module of the method. -/
  facts : ModuleFacts
  /-- The method. -/
  method : Token
  /-- The installations accepted for the method at the start. -/
  base : List Installation

namespace Watch

section Worlds

variable {τ : Type} {h : Host τ} (x : Watch h)

/-- The installations accepted for the method. -/
def installs (w : World EngineState τ) : List Installation :=
  x.ledger.installsFor x.facts.module x.method w.host

/-- Whether the engine would find that a body is instrumented. -/
def Recognises (s : EngineState) (body : List UInt8) : Prop :=
  ∃ id rule enter, s.emitter.live[x.facts.module]? = some id ∧
    x.engine.ruleFor x.facts x.method = .ok (some rule) ∧
    rule.helper.enter? (s.emitter.cache id) = some enter ∧ CarriesProbe body x.method enter

/-- What holds on the way. -/
structure Intact (w : World EngineState τ) : Prop where
  coherent : w.engine.Coherent
  tracks : w.engine.Tracks x.engine x.facts
  once : x.installs w = x.base ∨ ∃ i, x.installs w = x.base ++ [i] ∧
    (w.engine.tornDown = true ∨ x.Recognises w.engine i.body)

/-- Whether a question is not the demand to install a body for the method. -/
def Elsewhere (q : Query) : Prop := ∀ body, q ≠ .install x.facts.module x.method body

/-- Whether a step of the engine leaves everything about the module as it was. -/
def Advances (s s' : EngineState) : Prop :=
  s.Coherent → s.Tracks x.engine x.facts → EngineState.Advances x.engine x.facts s s'

variable {x} {w w' : World EngineState τ}

theorem Recognises.later {s s' : EngineState} {body : List UInt8} (hs : s.Coherent)
    (hlater : s.Later x.facts.module s') (hbody : x.Recognises s body) :
    s'.tornDown = true ∨ x.Recognises s' body := by
  obtain ⟨id, rule, enter, hlive, hrule, henter, hcarries⟩ := hbody
  obtain ⟨hid, hm⟩ := hs.caches x.facts.module id hlive
  refine (hlater.live id hlive).imp_right fun hlive' => ?_
  exact ⟨id, rule, enter, hlive', hrule, HelperRef.enter?_later (hlater.rows id hid hm) henter,
    hcarries⟩

/-- A step that accepts nothing for the method. -/
theorem Intact.step (hw : x.Intact w) (hcoherent : w'.engine.Coherent)
    (htracks : w'.engine.Tracks x.engine x.facts)
    (hlater : w.engine.Later x.facts.module w'.engine) (hinstalls : x.installs w' = x.installs w) :
    x.Intact w' := by
  refine ⟨hcoherent, htracks, ?_⟩
  rw [hinstalls]
  refine hw.once.imp_right fun ⟨i, hi, hbody⟩ => ⟨i, hi, ?_⟩
  rcases hbody with hdown | hbody
  · exact .inl (hlater.stopped hdown)
  · exact hbody.later hw.coherent hlater

end Worlds

/-! ### Courses -/

section Courses

variable {τ : Type} {h : Host τ} (x : Watch h)
  (deliver : Event → World EngineState τ → World EngineState τ)

/-- An event that keeps the world intact, and what the engine has of the module. -/
def Kept (d : Delivery EngineState τ) : Prop :=
  x.Intact d.world → x.Intact (deliver d.event d.world) ∧
    d.world.engine.Later x.facts.module (deliver d.event d.world).engine

/-- An event behind which no other bodies are accepted for the method than before. -/
def Spares (d : Delivery EngineState τ) : Prop :=
  x.Intact d.world → x.installs (deliver d.event d.world) = x.installs d.world

/-- An event that leaves the module's rows alone. -/
def Calm (d : Delivery EngineState τ) : Prop :=
  x.Intact d.world →
    d.world.engine.SameRows x.facts.module (deliver d.event d.world).engine

/-- Whether a body is accepted for the method in the course itself. -/
def Accepts (c : Course EngineState τ) : Prop :=
  ∃ i ∈ c.exchanges.filterMap Exchange.accepted?, i.module = x.facts.module ∧ i.method = x.method

/-- What is assumed of the events on the way: they are kept, those that come while the module's
lock is held leave the method and the rows alone, and in a course that has a body accepted for
the method those that come while it waits for metadata of the module leave the method alone. -/
structure Orderly (c : Course EngineState τ) : Prop where
  kept : ∀ d ∈ c.deliveries, x.Kept deliver d
  locked : ∀ d ∈ c.deliveries, d.pending.Locks x.facts.module →
    x.Spares deliver d ∧ x.Calm deliver d
  alone : x.Accepts c → ∀ d ∈ c.deliveries, d.pending = .metadata x.facts.module →
    x.Spares deliver d

/-- The world is intact after the course, which accepts nothing for the method unless it is asked
to, and adds no row for the module but under its lock, if the events on the way do not either;
`rows` says that it adds none in any case. -/
structure Passes (rows : Prop) (w : World EngineState τ) (c : Course EngineState τ)
    (w' : World EngineState τ) : Prop where
  intact : x.Intact w'
  later : w.engine.Later x.facts.module w'.engine
  installs : (∀ d ∈ c.deliveries, x.Spares deliver d) →
    (∀ q ∈ c.exchanges, x.Elsewhere q.query) → x.installs w' = x.installs w
  rows : (∀ d ∈ c.deliveries, x.Calm deliver d) →
    (rows ∨ ∀ q ∈ c.exchanges, ¬ q.query.Locks x.facts.module) →
    w.engine.SameRows x.facts.module w'.engine

/-- So it is if the events on the way are orderly. -/
def Keeps (rows : Prop) (w : World EngineState τ) (c : Course EngineState τ)
    (w' : World EngineState τ) : Prop :=
  x.Orderly deliver c → x.Intact w → x.Passes deliver rows w c w'

variable {x deliver} {w w₁ w' : World EngineState τ} {c c' : Course EngineState τ} {rows : Prop}

theorem orderly_empty : x.Orderly deliver .empty :=
  ⟨fun _ hd => absurd hd List.not_mem_nil, fun _ hd => absurd hd List.not_mem_nil,
    fun _ _ hd => absurd hd List.not_mem_nil⟩

theorem accepts_append : x.Accepts (c ++ c') ↔ x.Accepts c ∨ x.Accepts c' := by
  unfold Accepts
  simp only [Course.exchanges_append, List.filterMap_append, List.mem_append, or_and_right,
    exists_or]

/-- What is assumed of a course is assumed of its parts. -/
theorem orderly_append (horderly : x.Orderly deliver (c ++ c')) :
    x.Orderly deliver c ∧ x.Orderly deliver c' := by
  obtain ⟨hkept, hkept'⟩ := List.forall_mem_append.mp horderly.kept
  obtain ⟨hlocked, hlocked'⟩ := List.forall_mem_append.mp horderly.locked
  refine ⟨⟨hkept, hlocked, fun haccepts => ?_⟩, ⟨hkept', hlocked', fun haccepts => ?_⟩⟩
  · exact (List.forall_mem_append.mp (horderly.alone (accepts_append.mpr (.inl haccepts)))).1
  · exact (List.forall_mem_append.mp (horderly.alone (accepts_append.mpr (.inr haccepts)))).2

theorem Passes.trans (hfirst : x.Passes deliver rows w c w₁)
    (hsecond : x.Passes deliver rows w₁ c' w') : x.Passes deliver rows w (c ++ c') w' where
  intact := hsecond.intact
  later := hfirst.later.trans hsecond.later
  installs hspares hq := by
    obtain ⟨hc, hc'⟩ := List.forall_mem_append.mp hspares
    obtain ⟨hq, hq'⟩ := List.forall_mem_append.mp hq
    exact (hsecond.installs hc' hq').trans (hfirst.installs hc hq)
  rows hcalm hrows := by
    obtain ⟨hc, hc'⟩ := List.forall_mem_append.mp hcalm
    refine (hfirst.rows hc (hrows.imp_right fun hq => ?_)).trans hfirst.later
      (hsecond.rows hc' (hrows.imp_right fun hq => ?_))
    · exact (List.forall_mem_append.mp hq).1
    · exact (List.forall_mem_append.mp hq).2

theorem passes_refl (hw : x.Intact w) : x.Passes deliver rows w .empty w :=
  ⟨hw, .refl w.engine, fun _ _ => rfl, fun _ _ => .refl w.engine⟩

theorem composes_keeps : Proc.Composes (x.Keeps deliver rows) where
  refl _ _ hw := passes_refl hw
  trans hfirst hsecond horderly hw := by
    obtain ⟨horder, horder'⟩ := orderly_append horderly
    have hpasses := hfirst horder hw
    exact hpasses.trans (hsecond horder' hpasses.intact)

/-- A step of the engine that leaves everything about the module as it was. -/
theorem keeps_of_advances {s : EngineState} (hs : x.Advances w.engine s) :
    x.Keeps deliver rows w .empty { w with engine := s } := by
  intro _ hw
  have hstep := hs hw.coherent hw.tracks
  exact ⟨hw.step hstep.coherent hstep.tracks hstep.later rfl, hstep.later, fun _ _ => rfl,
    fun _ _ => hstep.rows⟩

/-- A step of the runtime that accepts nothing for the method. -/
theorem keeps_of_host {t : τ} {c : Course EngineState τ}
    (ht : x.ledger.installsFor x.facts.module x.method t = x.installs w) :
    x.Keeps deliver rows w c { w with host := t } := fun _ hw =>
  ⟨hw.step hw.coherent hw.tracks (.refl _) ht, .refl _, fun _ _ => ht, fun _ _ => .refl _⟩

theorem keeps_delivery (q : Query) (event : Event) (w : World EngineState τ) :
    x.Keeps deliver rows w ⟨[], [⟨q, event, w⟩]⟩ (deliver event w) := by
  intro horderly hw
  obtain ⟨hw', hlater⟩ := horderly.kept _ List.mem_cons_self hw
  exact ⟨hw', hlater, fun hspares _ => hspares _ List.mem_cons_self hw,
    fun hcalm _ => hcalm _ List.mem_cons_self hw⟩

theorem installsFor_interrupts (q : Query) (t : τ) :
    x.ledger.installsFor x.facts.module x.method (h.interrupts q t).2 =
      x.ledger.installsFor x.facts.module x.method t := by
  show (x.ledger.installs _).filter _ = (x.ledger.installs _).filter _
  rw [x.ledger.interrupts]

theorem keeps_meanwhile (q : Query) (w : World EngineState τ) :
    x.Keeps deliver rows w (Proc.meanwhile h deliver q w) (Proc.resumed h deliver q w) :=
  composes_keeps.meanwhile (keeps_of_host (installsFor_interrupts q w.host))
    fun event _ => keeps_delivery q event

/-! ### Questions -/

theorem elsewhere_of_notInstall {q : Query} (hq : q.NotInstall) : x.Elsewhere q := by
  rintro body rfl
  exact hq

/-- What an answer accepts for the method. -/
theorem installsFor_answer (q : Query) (t : τ) :
    x.ledger.installsFor x.facts.module x.method (h.answer q t).2 =
      x.ledger.installsFor x.facts.module x.method t ++
        (Exchange.mk q (h.answer q t).1).accepted?.toList.filter
          fun i => i.module == x.facts.module && i.method == x.method := by
  show (x.ledger.installs _).filter _ = (x.ledger.installs _).filter _ ++ _
  rw [x.ledger.answer, List.filter_append]

theorem accepted_elsewhere {q : Query} (hq : x.Elsewhere q) (a : q.Answer) :
    (Exchange.mk q a).accepted?.toList.filter
      (fun i => i.module == x.facts.module && i.method == x.method) = [] := by
  cases q with
  | install m method body =>
    cases a with
    | error err => rfl
    | ok u =>
      apply List.filter_cons_of_neg
      intro hsame
      obtain ⟨hm, hmethod⟩ := Bool.and_eq_true_iff.mp hsame
      exact hq body (by rw [← eq_of_beq hm, ← eq_of_beq hmethod])
  | _ => rfl

/-- A question whose answer accepts nothing for the method. -/
theorem keeps_exchange {q : Query} {w : World EngineState τ}
    (hq : x.Elsewhere q ∨ (Exchange.mk q (Proc.exchange h deliver q w).1).accepted? = none) :
    x.Keeps deliver rows w (Proc.asking h deliver q w) (Proc.exchange h deliver q w).2 := by
  have hnone : (Exchange.mk q (Proc.exchange h deliver q w).1).accepted?.toList.filter
      (fun i => i.module == x.facts.module && i.method == x.method) = [] := by
    rcases hq with hq | hnone
    · exact accepted_elsewhere hq _
    · rw [hnone]
      rfl
  refine composes_keeps.exchange (keeps_of_host (installsFor_interrupts q w.host))
    (fun event _ => keeps_delivery q event) (keeps_of_host ((installsFor_answer q _).trans ?_))
  exact (congrArg (_ ++ ·) hnone).trans (List.append_nil _)

theorem keeps_of_exchange {q : Query} {a : q.Answer}
    (hexchange : Proc.exchange h deliver q w = (a, w')) (hq : x.Elsewhere q) :
    x.Keeps deliver rows w (Proc.asking h deliver q w) w' := by
  have hkeeps : x.Keeps deliver rows w _ _ := keeps_exchange (.inl hq)
  rw [hexchange] at hkeeps
  exact hkeeps

/-- A computation whose own steps leave everything about the module as it was. -/
theorem keeps_of_confined {α : Type} {p : Proc EngineState α} {a : α}
    (hp : p.Confined x.Elsewhere x.Advances w.engine)
    (hruns : p.Runs h deliver w a c w') : x.Keeps deliver rows w c w' :=
  hp.runs composes_keeps (fun _ _ => keeps_of_advances) (fun _ _ hq => keeps_exchange (.inl hq))
    hruns

/-- While the module's lock is held, events leave the method and the module's rows alone. -/
theorem quiet_of_confined {α : Type} {p : Proc EngineState α} {a : α}
    {R : EngineState → EngineState → Prop}
    (hp : p.Confined (Query.Locks x.facts.module) R w.engine)
    (hruns : p.Runs h deliver w a c w') (horderly : x.Orderly deliver c) :
    ∀ d ∈ c.deliveries, x.Spares deliver d ∧ x.Calm deliver d := fun d hd =>
  horderly.locked d hd (hp.pending_of_mem hruns d hd)

end Courses

/-! ### Rows -/

section Rows

variable {τ : Type} {h : Host τ} {x : Watch h}
  {deliver : Event → World EngineState τ → World EngineState τ} {w w' : World EngineState τ}
  {c : Course EngineState τ} {r : ModuleRecord} {row : MetadataRow}

/-- The token cache of a record is there, and is one of its module. -/
def Held (r : ModuleRecord) (s : EngineState) : Prop :=
  r.cache < s.emitter.caches.size ∧ (s.emitter.cache r.cache).module = r.module

theorem Held.later {m : ModuleId} {s s' : EngineState} (hheld : Held r s) (hlater : s.Later m s') :
    Held r s' := by
  obtain ⟨hid, hm⟩ := hheld
  obtain ⟨hid', hm'⟩ := hlater.caches r.cache hid
  exact ⟨hid', hm'.trans hm⟩

/-- Defining a row asks for it at least once. -/
theorem defined_of_runs {m : ModuleId} {id : CacheId} {retries made : Nat}
    {a : Except Error (Token × Nat)}
    (hruns : ((moduleAccess m id).defineWithin row retries made).Runs h deliver w a c w') :
    ∃ q ∈ c.exchanges, q.query = .define m row := by
  obtain ⟨-, rfl⟩ := hruns
  cases retries with
  | zero => exact ⟨_, List.mem_cons_self, rfl⟩
  | succ retries => exact ⟨_, List.mem_cons_self, rfl⟩

theorem keeps_define {m : ModuleId} {id : CacheId} {retries made : Nat}
    {a : Except Error (Token × Nat)}
    (hruns : ((moduleAccess m id).defineWithin row retries made).Runs h deliver w a c w') :
    x.Keeps deliver rows w c w' :=
  keeps_of_confined
    (confined_defineWithin (fun _ => elsewhere_of_notInstall trivial) row retries made _) hruns

/-- Looking up a row changes none that there are, and adds none for another module. -/
theorem keeps_token (hheld : Held r w.engine) {result : Except Error Token}
    (hruns : ((moduleAccess r.module r.cache).token row).run.Runs h deliver w result c w') :
    x.Keeps deliver False w c w' := by
  rcases runs_token hruns with ⟨_, -, -, rfl, rfl⟩ | ⟨_, -, rfl, rfl⟩ |
    ⟨made, w₁, hnew, hdefine, ⟨_, -, -, rfl⟩ | ⟨token, attempts, -, -, rfl⟩⟩
  · exact composes_keeps.refl _
  · exact composes_keeps.refl _
  · exact keeps_define hdefine
  intro horderly hw
  have hpasses : x.Passes deliver True w c w₁ := keeps_define hdefine horderly hw
  obtain ⟨hw₁, hlater, hinstalls, hsame⟩ := hpasses
  by_cases hm : r.module = x.facts.module
  · -- nobody else puts the row there while it is asked for
    have hquiet := quiet_of_confined
      (confined_defineWithin (R := fun _ _ => True) (fun _ => hm) row _ 0 _) hdefine horderly
    have hrows := hsame (fun d hd => (hquiet d hd).2) (.inl trivial)
    have hnew₁ : (w₁.engine.emitter.cache r.cache).get? row = none :=
      (hrows r.cache hheld.1 (hheld.2.trans hm) row).trans hnew
    have hlater₁ := EngineState.later_record (m := x.facts.module) ⟨row, token, attempts⟩ hnew₁
    refine ⟨hw₁.step (hw₁.coherent.modifyCache fun _ => rfl) hw₁.tracks hlater₁ rfl,
      hlater.trans hlater₁, hinstalls, fun _ hunlocked => ?_⟩
    obtain ⟨q, hq, hquery⟩ := defined_of_runs hdefine
    refine absurd ?_ (hunlocked.resolve_left id q hq)
    rw [hquery]
    exact hm
  · have hcache : (w₁.engine.emitter.cache r.cache).module ≠ x.facts.module := by
      rw [(hheld.later hlater).2]
      exact hm
    have hstep : x.Keeps deliver False w₁ .empty _ := keeps_of_advances fun hs htracks =>
      EngineState.advances_record hs htracks hcache ⟨row, token, attempts⟩
    have hkeeps := composes_keeps.trans (keeps_define hdefine) hstep
    rw [Course.append_empty] at hkeeps
    exact hkeeps horderly hw

/-- A row that was looked up is in the cache. -/
theorem get?_of_runs {token : Token} (hheld : Held r w.engine)
    (hruns : ((moduleAccess r.module r.cache).token row).run.Runs h deliver w (.ok token) c w')
    (horderly : x.Orderly deliver c) (hw : x.Intact w) :
    (w'.engine.emitter.cache r.cache).get? row = some token := by
  rcases runs_token hruns with ⟨_, hrow, heq, -, rfl⟩ | ⟨_, ⟨⟩, -⟩ |
    ⟨made, w₁, -, hdefine, ⟨_, -, ⟨⟩, -⟩ | ⟨_, attempts, -, heq, rfl⟩⟩
  · rw [hrow, Except.ok.inj heq]
  · obtain rfl := Except.ok.inj heq
    have hpasses : x.Passes deliver True w c w₁ := keeps_define hdefine horderly hw
    exact EngineState.get?_record (hheld.later hpasses.later).1 ⟨row, token, attempts⟩

/-- What a computation does that looks rows up through the token cache of a record. -/
def Keeping (x : Watch h) (deliver : Event → World EngineState τ → World EngineState τ)
    (r : ModuleRecord) (α : Type) (p : EngineAttempt α) : Prop :=
  ∀ w result c w', Held r w.engine → p.run.Runs h deliver w result c w' →
    x.Keeps deliver False w c w'

theorem closed_keeping (x : Watch h)
    (deliver : Event → World EngineState τ → World EngineState τ) (r : ModuleRecord) :
    Attempt.Closed fun α p p' => p = p' ∧ x.Keeping deliver r α p := by
  refine .of_property (fun result => ?_) fun {α β p f} hp hf w result c w' hheld hruns => ?_
  · intro w result' c w' _ hruns
    obtain ⟨-, rfl, rfl⟩ := Attempt.runs_mk.mp hruns
    exact composes_keeps.refl _
  · rcases Attempt.runs_bind.mp hruns with ⟨_, -, hruns⟩ | ⟨a, c₁, w₁, c₂, hfirst, hsecond, rfl⟩
    · exact hp w _ c w' hheld hruns
    · intro horderly hw
      have hkeeps := hp w _ c₁ w₁ hheld hfirst
      obtain ⟨horder, -⟩ := orderly_append horderly
      have hheld₁ := hheld.later (hkeeps horder hw).later
      exact composes_keeps.trans hkeeps (hf a w₁ _ c₂ w' hheld₁ hsecond) horderly hw

theorem keeping_token (row : MetadataRow) :
    x.Keeping deliver r Token ((moduleAccess r.module r.cache).token row) :=
  fun _ _ _ _ hheld hruns => keeps_token hheld hruns

theorem keeping_coreLibrary :
    x.Keeping deliver r Token (ExceptT.mk (moduleAccess r.module r.cache).coreLibrary) := by
  intro w result c w' _ hruns
  have hconfined : (moduleAccess r.module r.cache).coreLibrary.Confined x.Elsewhere
      x.Advances w.engine := ⟨elsewhere_of_notInstall trivial, fun _ _ => trivial⟩
  exact keeps_of_confined hconfined hruns

end Rows

end Watch

end CilProbe
