/-
CilProbe/Proofs/Engine/Books.lean

The books of an engine.  `Booked` relates two worlds and the callbacks between them: the
counts have grown by what the callbacks contribute, each by itself, the claims by those
that they made, and the runtime has accepted the bodies that they installed; where as many
bodies were accepted as methods are counted as instrumented, that is so at every boundary
of a callback.  The relation composes, so it is enough to look at one callback.  There the
claim and the installation are the two steps that matter, and all others leave the books
as they are.

Main result: `booked_histories`.
-/
import CilProbe.Proofs.Engine.Settled

namespace CilProbe

open Engine

/-! ### Books -/

section Books

variable {τ : Type} {h : Host τ} {ledger : h.Ledger} {base : Nat}

/-- The bodies accepted, beyond the first `base`, are as many as the methods counted as
instrumented. -/
def Balanced (ledger : h.Ledger) (base : Nat) (w : World EngineState τ) : Prop :=
  (ledger.installs w.host).length = base + w.engine.outcomes.instrumented

theorem Balanced.congr {w w' : World EngineState τ} (hw : Balanced ledger base w)
    (hinstalls : ledger.installs w'.host = ledger.installs w.host)
    (houtcomes : w'.engine.outcomes = w.engine.outcomes) : Balanced ledger base w' := by
  unfold Balanced at hw ⊢
  rw [hinstalls, houtcomes, hw]

/-- The books of the second world are those of the first with what the callbacks in between
add to them. -/
structure Booked (ledger : h.Ledger) (base : Nat) (w : World EngineState τ)
    (cs : List (Callback τ)) (w' : World EngineState τ) : Prop where
  records : w.engine.records.size ≤ w'.engine.records.size
  events (k : EventKind) :
    w'.engine.events.get k = w.engine.events.get k + cs.countP (·.counts k)
  outcomes (o : MethodOutcome) :
    w'.engine.outcomes.get o = w.engine.outcomes.get o + cs.countP (·.outcome == some o)
  claims (id : RecordId) (method : Token) :
    (w'.engine.hasClaim id method).toNat =
      (w.engine.hasClaim id method).toNat + cs.countP (·.claims id method)
  installs : ledger.installs w'.host = ledger.installs w.host ++ cs.flatMap (·.installs)
  balanced : Balanced ledger base w →
    Balanced ledger base w' ∧ ∀ c ∈ cs, Balanced ledger base c.before ∧ Balanced ledger base c.after

namespace Booked

variable {w w₁ w' : World EngineState τ} {cs cs' : List (Callback τ)}

theorem refl (w : World EngineState τ) : Booked ledger base w [] w :=
  ⟨Nat.le_refl _, fun _ => rfl, fun _ => rfl, fun _ _ => rfl, (List.append_nil _).symm,
    fun hw => ⟨hw, fun _ hc => absurd hc List.not_mem_nil⟩⟩

theorem trans (hfirst : Booked ledger base w cs w₁) (hsecond : Booked ledger base w₁ cs' w') :
    Booked ledger base w (cs ++ cs') w' where
  records := Nat.le_trans hfirst.records hsecond.records
  events k := by
    rw [hsecond.events, hfirst.events, List.countP_append, Nat.add_assoc]
  outcomes o := by
    rw [hsecond.outcomes, hfirst.outcomes, List.countP_append, Nat.add_assoc]
  claims id method := by
    rw [hsecond.claims, hfirst.claims, List.countP_append, Nat.add_assoc]
  installs := by
    rw [hsecond.installs, hfirst.installs, List.flatMap_append, List.append_assoc]
  balanced hw := by
    obtain ⟨hw₁, hcs⟩ := hfirst.balanced hw
    obtain ⟨hw', hcs'⟩ := hsecond.balanced hw₁
    refine ⟨hw', fun c hc => ?_⟩
    rcases List.mem_append.mp hc with hc | hc
    · exact hcs c hc
    · exact hcs' c hc

/-- A step that leaves the books alone. -/
theorem of_same {s : EngineState} (hs : EngineState.SameBooks w.engine s) :
    Booked ledger base w [] { w with engine := s } where
  records := hs.records
  events _ := by
    rw [hs.events]
    rfl
  outcomes _ := by
    rw [hs.outcomes]
    rfl
  claims id method := by
    rw [hs.claims]
    rfl
  installs := (List.append_nil _).symm
  balanced hw := ⟨hw.congr rfl hs.outcomes, fun _ hc => absurd hc List.not_mem_nil⟩

/-- A move of the runtime in which it accepts nothing. -/
theorem of_host {t : τ} (ht : ledger.installs t = ledger.installs w.host) :
    Booked ledger base w [] { w with host := t } where
  records := Nat.le_refl _
  events _ := rfl
  outcomes _ := rfl
  claims _ _ := rfl
  installs := ht.trans (List.append_nil _).symm
  balanced hw := ⟨hw.congr ht rfl, fun _ hc => absurd hc List.not_mem_nil⟩

end Booked

end Books

/-! ### Runs that install nothing -/

section Runs

variable {τ : Type} {h : Host τ} {ledger : h.Ledger} {base : Nat}
  {deliver : Event → World EngineState τ → World EngineState τ}
  {log : Event → World EngineState τ → List (Callback τ)}

/-- The callbacks in a course. -/
def Course.logged (log : Event → World EngineState τ → List (Callback τ))
    (c : Course EngineState τ) : List (Callback τ) :=
  c.deliveries.flatMap fun d => log d.event d.world

theorem Course.logged_append (c c' : Course EngineState τ) :
    (c ++ c').logged log = c.logged log ++ c'.logged log := List.flatMap_append

theorem composes_booked (log : Event → World EngineState τ → List (Callback τ)) :
    Proc.Composes fun w (c : Course EngineState τ) w' => Booked ledger base w (c.logged log) w' :=
  composes_log Booked.refl Booked.trans log

/-- A run in which the runtime accepts nothing but what the callbacks inside install. -/
structure Quiet (ledger : h.Ledger) (base : Nat)
    (log : Event → World EngineState τ → List (Callback τ)) (w : World EngineState τ)
    (c : Course EngineState τ) (w' : World EngineState τ) : Prop where
  booked : Booked ledger base w (c.logged log) w'
  accepted : c.exchanges.filterMap Exchange.accepted? = []

variable (hlog : ∀ event w, Booked ledger base w (log event w) (deliver event w))
include hlog

theorem booked_delivery (q : Query) (event : Event) (w : World EngineState τ) :
    Booked ledger base w ((⟨[], [⟨q, event, w⟩]⟩ : Course EngineState τ).logged log)
      (deliver event w) := by
  show Booked ledger base w (log event w ++ []) (deliver event w)
  rw [List.append_nil]
  exact hlog event w

/-- The books while a question is pending. -/
theorem booked_meanwhile (q : Query) (w : World EngineState τ) :
    Booked ledger base w ((Proc.meanwhile h deliver q w).logged log)
      (Proc.resumed h deliver q w) :=
  (composes_booked log).meanwhile (.of_host (ledger.interrupts q w.host))
    fun event _ => booked_delivery hlog q event

theorem booked_exchange {q : Query} (hq : q.NotInstall) (w : World EngineState τ) :
    Booked ledger base w ((Proc.asking h deliver q w).logged log)
      (Proc.exchange h deliver q w).2 := by
  refine (composes_booked log).exchange (.of_host (ledger.interrupts q w.host))
    (fun event _ => booked_delivery hlog q event) (.of_host ((ledger.answer q _).trans ?_))
  rw [Exchange.accepted?_eq_none hq]
  exact List.append_nil _

/-- A computation that leaves the books alone and demands no installation. -/
theorem quiet_of_confined {α : Type} {p : Proc EngineState α} {w w' : World EngineState τ} {a : α}
    {c : Course EngineState τ} (hp : p.Confined Query.NotInstall EngineState.SameBooks w.engine)
    (hruns : p.Runs h deliver w a c w') : Quiet ledger base log w c w' where
  booked := hp.runs (composes_booked log) (fun _ _ => Booked.of_same)
    (fun _ w hq => booked_exchange hlog hq w) hruns
  accepted := accepted_eq_nil (hp.query_of_mem hruns)

end Runs

/-! ### One callback -/

namespace Engine

section Callbacks

variable {τ : Type} {h : Host τ} {ledger : h.Ledger} {base : Nat} {e : Engine}
  {deliver : Event → World EngineState τ → World EngineState τ}
  {log : Event → World EngineState τ → List (Callback τ)} {w w' : World EngineState τ}
  {c : Course EngineState τ} {r : Except Error (Option MethodOutcome)}

/-- Count an outcome, if there is one. -/
def countOf : Option MethodOutcome → EngineState → EngineState
  | none, s => s
  | some o, s => s.countOutcome o

theorem countResult_eq (r : Except Error (Option MethodOutcome)) (s : EngineState) :
    countResult r s = countOf (outcomeOf r) s := by
  rcases r with err | - | o
  · rfl
  · rfl
  · rfl

theorem outcomes_countOf (x : Option MethodOutcome) (s : EngineState) (o : MethodOutcome) :
    (countOf x s).outcomes.get o = s.outcomes.get o + if x = some o then 1 else 0 := by
  cases x with
  | none => rfl
  | some o' =>
    show (s.outcomes.add o').get o = _
    rw [OutcomeCounts.get_add]
    simp only [Option.some.injEq, eq_comm]

/-- Counting an outcome changes nothing else. -/
theorem countOf_keeps (x : Option MethodOutcome) (s : EngineState) :
    (countOf x s).events = s.events ∧ (countOf x s).records = s.records ∧
      ∀ id method, (countOf x s).hasClaim id method = s.hasClaim id method := by
  cases x with
  | none => exact ⟨rfl, rfl, fun _ _ => rfl⟩
  | some o => exact ⟨rfl, rfl, fun _ _ => rfl⟩

/-- What was accepted last is counted before the callback ends. -/
theorem balanced_counted {x : Option MethodOutcome} {bodies : List Installation}
    (hw : Balanced ledger base w) (houtcome : w'.engine = countOf x w.engine)
    (hinstalls : ledger.installs w'.host = ledger.installs w.host ++ bodies)
    (hlength : bodies.length = if x = some .instrumented then 1 else 0) :
    Balanced ledger base w' := by
  have hcount : (countOf x w.engine).outcomes.instrumented =
      w.engine.outcomes.instrumented + if x = some .instrumented then 1 else 0 :=
    outcomes_countOf x w.engine .instrumented
  unfold Balanced at hw ⊢
  rw [hinstalls, List.length_append, hlength, houtcome, hcount, hw, Nat.add_assoc]

/-- One more entry for the list, after what the callbacks inside it contribute: those before
its claim, if it makes one, and those behind it. -/
theorem booked_callback {cb : Callback τ} {cs₁ cs₂ : List (Callback τ)}
    {w₁ w₂ : World EngineState τ} {state : EngineState} (hbefore : cb.before = w)
    (hafter : cb.after = w') (hup : w.engine.tornDown = false)
    (hfirst : Booked ledger base (counted cb.event w) cs₁ w₁)
    (hclaim : EngineState.Claims cb.claims w₁.engine state)
    (hsecond : Booked ledger base { w₁ with engine := state } cs₂ w₂)
    (houtcome : w'.engine = countOf cb.outcome w₂.engine)
    (hinstalls : ledger.installs w'.host = ledger.installs w₂.host ++ cb.installs)
    (hlength : cb.installs.length = if cb.outcome = some .instrumented then 1 else 0) :
    Booked ledger base w (cs₁ ++ cs₂ ++ [cb]) w' := by
  obtain ⟨hevents, hrecords, hclaims⟩ := countOf_keeps cb.outcome w₂.engine
  have hone : ∀ p : Callback τ → Bool, [cb].countP p = (p cb).toNat := by
    intro p
    rw [List.countP_singleton]
    cases p cb with
    | true => rfl
    | false => rfl
  constructor
  case records =>
    have h₁ : w.engine.records.size ≤ w₁.engine.records.size := hfirst.records
    have h₂ : state.records.size ≤ w₂.engine.records.size := hsecond.records
    rw [houtcome, hrecords]
    exact Nat.le_trans h₁ (hclaim.records ▸ h₂)
  case events =>
    -- the event is counted at the very beginning, its callback comes last in the list
    intro k
    have h₁ : w₁.engine.events.get k =
        (w.engine.events.add cb.event.kind).get k + cs₁.countP (·.counts k) := hfirst.events k
    have hcounts : (cb.counts k).toNat = if k = cb.event.kind then 1 else 0 := by
      unfold Callback.counts
      rw [hbefore, hup]
      by_cases hk : k = cb.event.kind
      · simp [hk]
      · simp [hk]
    rw [houtcome, hevents, hsecond.events, hclaim.events, h₁, EventCounts.get_add,
      List.countP_append, List.countP_append, hone, hcounts]
    omega
  case outcomes =>
    intro o
    have h₁ : w₁.engine.outcomes.get o =
        w.engine.outcomes.get o + cs₁.countP (·.outcome == some o) := hfirst.outcomes o
    have hcounts : (cb.outcome == some o).toNat = if cb.outcome = some o then 1 else 0 := by
      by_cases ho : cb.outcome = some o
      · simp [ho]
      · simp [ho]
    rw [houtcome, outcomes_countOf, hsecond.outcomes, hclaim.outcomes, h₁, List.countP_append,
      List.countP_append, hone, hcounts]
    omega
  case claims =>
    intro id method
    have h₁ : (w₁.engine.hasClaim id method).toNat =
        (w.engine.hasClaim id method).toNat + cs₁.countP (·.claims id method) :=
      hfirst.claims id method
    rw [houtcome, hclaims, hsecond.claims, hclaim.claims, h₁, List.countP_append,
      List.countP_append, hone]
    omega
  case installs =>
    have h₁ : ledger.installs w₁.host = ledger.installs w.host ++ cs₁.flatMap (·.installs) :=
      hfirst.installs
    rw [hinstalls, hsecond.installs, h₁, List.flatMap_append, List.flatMap_append,
      List.flatMap_singleton, List.append_assoc, List.append_assoc, List.append_assoc]
  case balanced =>
    intro hw
    obtain ⟨hw₁, hcs₁⟩ := hfirst.balanced hw
    obtain ⟨hw₂, hcs₂⟩ := hsecond.balanced (hw₁.congr rfl hclaim.outcomes)
    have hw' := balanced_counted hw₂ houtcome hinstalls hlength
    refine ⟨hw', fun c hc => ?_⟩
    rcases List.mem_append.mp hc with hc | hc
    · rcases List.mem_append.mp hc with hc | hc
      · exact hcs₁ c hc
      · exact hcs₂ c hc
    · obtain rfl := List.mem_singleton.mp hc
      rw [hbefore, hafter]
      exact ⟨hw, hw'⟩

/-! ### Compilations -/

/-- The books at the end of a run, but for the body that may have been accepted last. -/
def Owed (ledger : h.Ledger) (base : Nat)
    (log : Event → World EngineState τ → List (Callback τ)) (w : World EngineState τ)
    (c : Course EngineState τ) (w' : World EngineState τ) : Prop :=
  ∃ w₁, Booked ledger base w (c.logged log) w₁ ∧ w'.engine = w₁.engine ∧
    ledger.installs w'.host =
      ledger.installs w₁.host ++ c.exchanges.filterMap Exchange.accepted?

theorem owed_nothing (w : World EngineState τ) : Owed ledger base log w .empty w :=
  ⟨w, .refl w, rfl, (List.append_nil _).symm⟩

theorem Owed.of_quiet (hquiet : Quiet ledger base log w c w') : Owed ledger base log w c w' := by
  refine ⟨w', hquiet.booked, rfl, ?_⟩
  rw [hquiet.accepted, List.append_nil]

theorem Owed.after {c' : Course EngineState τ} {w₁ : World EngineState τ}
    (hquiet : Quiet ledger base log w c w₁) (howed : Owed ledger base log w₁ c' w') :
    Owed ledger base log w (c ++ c') w' := by
  obtain ⟨w₂, hbooked, hengine, hinstalls⟩ := howed
  refine ⟨w₂, ?_, hengine, ?_⟩
  · rw [Course.logged_append]
    exact hquiet.booked.trans hbooked
  · rw [hinstalls, Course.exchanges_append, List.filterMap_append, hquiet.accepted, List.nil_append]

section

variable (hlog : ∀ event w, Booked ledger base w (log event w) (deliver event w))
include hlog

theorem owed_of_installing {s : Subject} {body : List UInt8}
    (hinstalling : Installing h deliver s body w r c w') : Owed ledger base log w c w' := by
  have hdemand : ∀ q w, Owed ledger base log w (Proc.asking h deliver q w)
      (Proc.exchange h deliver q w).2 := by
    intro q w
    refine ⟨_, booked_meanwhile hlog q w, rfl, ?_⟩
    rw [Proc.exchange_snd, ledger.answer]
    apply congrArg
    exact (toList_accepted _).symm
  cases hinstalling with
  | locked => exact owed_nothing w
  | stopped => exact owed_nothing w
  | refused => exact hdemand _ w
  | installed => exact hdemand _ w

theorem quiet_of_probing {s : Subject} {rule : Rule} {data locals : List UInt8}
    {outcome : Except Error ProbeOutcome}
    (hruns : (e.probing s rule data locals).run.Runs h deliver w outcome c w') :
    Quiet ledger base log w c w' :=
  quiet_of_confined hlog
    (confined_probe_tokens _ _ _ trivial (fun _ => trivial)
      (fun _ _ => EngineState.SameBooks.of_records) _) hruns

theorem quiet_of_reading {s : Subject} {outcome : Except Error (List UInt8 × List UInt8)}
    (hruns : (readMethod s).run.Runs h deliver w outcome c w') : Quiet ledger base log w c w' :=
  quiet_of_confined hlog (confined_readMethod s trivial trivial _) hruns

theorem quiet_of_checking {s : Subject} {body : List UInt8} {outcome : Except Error Unit}
    (hruns : (e.check s body).run.Runs h deliver w outcome c w') : Quiet ledger base log w c w' :=
  quiet_of_confined hlog (confined_check e s body trivial _) hruns

theorem quiet_of_choosing {function : FunctionId}
    {outcome : Except Error (Option (Option (Subject × Rule)))}
    (hruns : (e.choose function).run.Runs h deliver w outcome c w') :
    Quiet ledger base log w c w' :=
  quiet_of_confined hlog (confined_choose e function trivial (fun _ => trivial) _) hruns

/-- Behind the claim nothing is counted, and a body is accepted only at the very end. -/
theorem owed_of_instrumenting {s : Subject} {rule : Rule}
    (hinstrumenting : Instrumenting h deliver e s rule w r c w') :
    Owed ledger base log w c w' := by
  cases hinstrumenting with
  | unread hread => exact .of_quiet (quiet_of_reading hlog hread)
  | unprobed hread hprobe =>
    exact .after (quiet_of_reading hlog hread) (.of_quiet (quiet_of_probing hlog hprobe))
  | recognised hread hprobe =>
    exact .after (quiet_of_reading hlog hread) (.of_quiet (quiet_of_probing hlog hprobe))
  | rejected hread hprobe hcheck =>
    refine .after (quiet_of_reading hlog hread) (.after (quiet_of_probing hlog hprobe) ?_)
    exact .of_quiet (quiet_of_checking hlog hcheck)
  | accepted hread hprobe hcheck hinstalling =>
    refine .after (quiet_of_reading hlog hread) (.after (quiet_of_probing hlog hprobe) ?_)
    exact .after (quiet_of_checking hlog hcheck) (owed_of_installing hlog hinstalling)

/-- A method that was found is one of a record there is. -/
theorem lt_of_chosen {function : FunctionId} {s : Subject} {rule : Rule}
    (hruns : (e.choose function).run.Runs h deliver w (.ok (some (some (s, rule)))) c w') :
    s.id < w'.engine.records.size := by
  obtain ⟨info, w₁, view, -, hfind, hview, -⟩ := exists_of_chosen hruns
  have hlt : s.id < w₁.engine.records.size :=
    (Array.getElem?_eq_some_iff.mp (EngineState.find?_eq_some.mp hfind).2).1
  have hgrows : w₁.engine.records.size ≤
      (Proc.exchange h deliver (.metadata s.record.module) w₁).2.engine.records.size :=
    (booked_exchange hlog (show Query.NotInstall (.metadata _) from trivial) w₁).records
  rw [hview] at hgrows
  exact Nat.lt_of_lt_of_le hlt hgrows

/-- A compilation in two parts, with the claim between them. -/
theorem books_of_compiling {function : FunctionId} {claim? : Option (Subject × Bool)}
    (hcompiling : Compiling h deliver e function w claim? r c w') :
    ∃ c₁ w₁ state c₂, c = c₁ ++ c₂ ∧ Quiet ledger base log w c₁ w₁ ∧
      EngineState.Claims (claimed claim?) w₁.engine state ∧
      Owed ledger base log { w₁ with engine := state } c₂ w' := by
  cases hcompiling with
  | failed hchoose =>
    exact ⟨c, w', _, .empty, (Course.append_empty c).symm, quiet_of_choosing hlog hchoose,
      .nothing _, owed_nothing w'⟩
  | dismissed hchoose =>
    exact ⟨c, w', _, .empty, (Course.append_empty c).symm, quiet_of_choosing hlog hchoose,
      .nothing _, owed_nothing w'⟩
  | unruled hchoose =>
    exact ⟨c, w', _, .empty, (Course.append_empty c).symm, quiet_of_choosing hlog hchoose,
      .nothing _, owed_nothing w'⟩
  | lost hchoose hlost =>
    exact ⟨c, _, _, .empty, (Course.append_empty c).symm, quiet_of_choosing hlog hchoose,
      .of_claim hlost (lt_of_chosen hlog hchoose), owed_nothing _⟩
  | won hchoose hwon hinstrumenting =>
    exact ⟨_, _, _, _, rfl, quiet_of_choosing hlog hchoose,
      .of_claim hwon (lt_of_chosen hlog hchoose), owed_of_instrumenting hlog hinstrumenting⟩

/-! ### Callbacks -/

omit hlog in
/-- The entry for an event that came too late. -/
theorem booked_late (event : Event) (hdown : w.engine.tornDown = true) :
    Booked ledger base w [e.callback h deliver event w] w := by
  obtain ⟨hrun, hcourse⟩ : (e.handle event).Runs h deliver w .success .empty w :=
    handle_of_tornDown hdown
  have hcounts : ∀ k, (e.callback h deliver event w).counts k = false := by
    intro k
    show (!w.engine.tornDown && _) = false
    rw [hdown]
    rfl
  have hclaim : (e.callback h deliver event w).claim? = none := if_pos hdown
  have houtcome : (e.callback h deliver event w).outcome = none := if_pos hdown
  have hinstalls : (e.callback h deliver event w).installs = [] := by
    show ((e.handle event).course h deliver w).exchanges.filterMap _ = []
    rw [hcourse]
    rfl
  have hafter : (e.callback h deliver event w).after = w := congrArg Prod.snd hrun
  -- an event that comes late is no entry in any of the books
  refine ⟨Nat.le_refl _, fun k => ?_, fun o => ?_, fun id method => ?_, ?_, fun hw => ⟨hw, ?_⟩⟩
  · rw [List.countP_singleton, hcounts]
    rfl
  · rw [List.countP_singleton, houtcome]
    rfl
  · rw [List.countP_singleton, Callback.claims, hclaim]
    rfl
  · rw [List.flatMap_singleton, hinstalls, List.append_nil]
  · intro c hc
    obtain rfl := List.mem_singleton.mp hc
    rw [hafter]
    exact ⟨hw, hw⟩

/-- An event that was dealt with in two parts, with a claim between them if it makes one. -/
theorem books_of_handle (event : Event) (hup : w.engine.tornDown = false) :
    ∃ c₁ w₁ state c₂ w₂, Quiet ledger base log (counted event w) c₁ w₁ ∧
      EngineState.Claims (e.callback h deliver event w).claims w₁.engine state ∧
      Owed ledger base log { w₁ with engine := state } c₂ w₂ ∧
      (e.handle event).Runs h deliver w .success (c₁ ++ c₂)
        { w₂ with engine := countOf (e.callback h deliver event w).outcome w₂.engine } := by
  by_cases hevent : event.kind = .compilation
  · cases event with
    | compiling function mayBlock =>
      obtain ⟨r, c, w₂, hcompiling, hhandle, houtcome⟩ :=
        compiling_of_callback e h deliver function mayBlock hup
      obtain ⟨c₁, w₁, state, c₂, rfl, hquiet, hclaims, howed⟩ := books_of_compiling hlog hcompiling
      rw [countResult_eq, ← houtcome] at hhandle
      exact ⟨c₁, w₁, state, c₂, w₂, hquiet, hclaims, howed, hhandle⟩
    | _ => cases hevent
  · -- any other event neither claims nor installs
    obtain ⟨c, w₁, hact, hhandle⟩ := handle_of_running e h deliver event hup
    obtain ⟨hclaim, houtcome⟩ := callback_of_other e h deliver w hevent
    have hquiet : Quiet ledger base log (counted event w) c w₁ :=
      quiet_of_confined hlog (confined_act hevent (fun _ => trivial) (fun _ => trivial)
        (fun m s info => .of_enrolls ⟨m, info, _, rfl⟩) (fun m _ s => .remove s m)
        (fun a _ s => .removeAssembly s a) (fun _ s => .tearDown s) _) hact
    have hclaims : (e.callback h deliver event w).claims = fun _ _ => false := by
      funext id method
      rw [Callback.claims, hclaim]
      rfl
    refine ⟨c, w₁, w₁.engine, .empty, w₁, hquiet, ?_, owed_nothing w₁, ?_⟩
    · rw [hclaims]
      exact .nothing _
    · rw [houtcome, Course.append_empty]
      exact hhandle

/-- What one callback adds to the books, with those inside it. -/
theorem booked_event (event : Event) (w : World EngineState τ) :
    Booked ledger base w
      (((e.handle event).course h deliver w).logged log ++ [e.callback h deliver event w])
      ((e.handle event).run h deliver w).2 := by
  cases hup : w.engine.tornDown with
  | true =>
    obtain ⟨hrun, hcourse⟩ : (e.handle event).Runs h deliver w .success .empty w :=
      handle_of_tornDown hup
    rw [hrun, hcourse]
    exact booked_late event hup
  | false =>
    obtain ⟨c₁, w₁, state, c₂, w₂, hquiet, hclaims, ⟨w₃, hbooked, hengine, hhost⟩, hrun, hcourse⟩ :=
      books_of_handle (e := e) hlog event hup
    have hinstalls : (e.callback h deliver event w).installs =
        c₂.exchanges.filterMap Exchange.accepted? := by
      show ((e.handle event).course h deliver w).exchanges.filterMap _ = _
      rw [hcourse, Course.exchanges_append, List.filterMap_append, hquiet.accepted, List.nil_append]
    rw [hcourse, Course.logged_append]
    refine booked_callback rfl rfl hup hquiet.booked hclaims hbooked ?_ ?_
      (settled_callback e h deliver event w).length_accepted
    · rw [hrun, ← hengine]
    · rw [hrun, hinstalls]
      exact hhost

end

/-- The books of a delivery. -/
theorem booked_history (e : Engine) (h : Host τ) (ledger : h.Ledger) (base depth : Nat)
    (event : Event) (w : World EngineState τ) :
    Booked ledger base w (e.history h depth event w) (e.deliver h depth event w).2 :=
  history_induction Booked.refl (fun _ _ => booked_event) depth event w

/-- The books of every run. -/
theorem booked_histories (e : Engine) (h : Host τ) (ledger : h.Ledger) (base depth : Nat)
    (events : List Event) (w : World EngineState τ) :
    Booked ledger base w (e.histories h depth events w) (e.deliverAll h depth events w) :=
  histories_induction Booked.refl Booked.trans (booked_history e h ledger base depth) events w

end Callbacks

end Engine

end CilProbe
