/-
CilProbe/Proofs/Engine/Settled.lean

What a compilation comes to.  `Settled` relates the claim that it makes, the outcome that
is counted and the questions it asks itself: without a claim of its own it does not touch
any body, and if it installs one, then that is the last it does, and the body was checked
as thoroughly as the engine is set up to (`Approves`).
-/
import CilProbe.Proofs.Engine.Callbacks

namespace CilProbe

/-! ### Questions about bodies -/

/-- Whether a question is about the body of a method. -/
def Query.AboutBody : Query → Prop
  | .readBody _ _ | .install _ _ _ => True
  | _ => False

/-- Whether a question is not a demand to install a body. -/
def Query.NotInstall : Query → Prop
  | .install _ _ _ => False
  | _ => True

theorem Query.notInstall_of_not_aboutBody {q : Query} (hq : ¬ q.AboutBody) : q.NotInstall := by
  cases q with
  | install => exact hq trivial
  | _ => trivial

theorem Exchange.accepted?_eq_none {x : Exchange} (hx : x.query.NotInstall) : x.accepted? = none := by
  rcases x with ⟨q, a⟩
  cases q with
  | install => exact hx.elim
  | _ => rfl

/-- What was accepted was asked for. -/
theorem eq_of_accepted {x : Exchange} {i : Installation} (hx : x.accepted? = some i) :
    x = ⟨.install i.module i.method i.body, .ok ()⟩ := by
  rcases x with ⟨q, a⟩
  cases q with
  | install m method body =>
    rcases a with err | ⟨⟩
    · cases hx
    · cases hx
      rfl
  | _ => cases hx

theorem toList_accepted (x : Exchange) : [x].filterMap Exchange.accepted? = x.accepted?.toList := by
  rw [List.filterMap_cons]
  cases x.accepted? with
  | none => rfl
  | some i => rfl

theorem accepted_eq_nil {xs : List Exchange} (hxs : ∀ x ∈ xs, x.query.NotInstall) :
    xs.filterMap Exchange.accepted? = [] :=
  List.filterMap_eq_nil_iff.mpr fun x hx => Exchange.accepted?_eq_none (hxs x hx)

namespace Engine

/-! ### Checked bodies -/

/-- What is known of a body before it is installed, where `asked` are the questions so far: it
was checked as thoroughly as the engine is set up to, and where that takes call sites, they are
those of the metadata asked for last. -/
def Approves (e : Engine) (s : Subject) (body : List UInt8) (asked : List Exchange) : Prop :=
  match e.verify with
  | .off => True
  | .structural =>
    ∃ report, Check.checkBody body (!s.descriptor.signature.ret.isVoid) none = .ok report
  | .full =>
    ∃ before view report, asked = before ++ [⟨.metadata s.record.module, view⟩] ∧
      Check.checkBody body (!s.descriptor.signature.ret.isVoid) (some view.callSites) = .ok report

theorem Approves.append {e : Engine} {s : Subject} {body : List UInt8} {asked : List Exchange}
    (before : List Exchange) (happroves : e.Approves s body asked) :
    e.Approves s body (before ++ asked) := by
  unfold Approves at happroves ⊢
  split
  · trivial
  · next hverify =>
    rw [hverify] at happroves
    exact happroves
  · next hverify =>
    rw [hverify] at happroves
    obtain ⟨before', view, report, rfl, hcheck⟩ := happroves
    exact ⟨before ++ before', view, report, (List.append_assoc _ _ _).symm, hcheck⟩

section Ways

variable {τ : Type} {h : Host τ} {deliver : Event → World EngineState τ → World EngineState τ}
  {e : Engine} {function : FunctionId} {s : Subject} {rule : Rule} {body : List UInt8}
  {w w' : World EngineState τ} {claim? : Option (Subject × Bool)}
  {r : Except Error (Option MethodOutcome)} {c : Course EngineState τ}

theorem approves_of_runs (hruns : (e.check s body).run.Runs h deliver w (.ok ()) c w') :
    e.Approves s body c.exchanges := by
  unfold check at hruns
  unfold Approves
  cases hverify : e.verify with
  | off => trivial
  | structural =>
    simp only [hverify] at hruns
    rcases Attempt.runs_mk_bind.mp hruns with ⟨_, -, ⟨⟩, -⟩ | ⟨report, hcheck, -⟩
    exact ⟨report, hcheck⟩
  | full =>
    simp only [hverify] at hruns
    rcases runs_demand_bind.mp hruns with ⟨_, -, ⟨⟩, -⟩ | ⟨view, c', hview, hrest, rfl⟩
    rcases Attempt.runs_mk_bind.mp hrest with ⟨_, -, ⟨⟩, -⟩ | ⟨report, hcheck, hdone⟩
    obtain ⟨-, rfl, -⟩ := Attempt.runs_pure.mp hdone
    obtain rfl := Except.ok.inj hview
    rw [Course.append_empty]
    exact ⟨[], _, report, rfl, hcheck⟩

/-! ### Outcomes -/

/-- What a compilation can come to. -/
inductive Settled (e : Engine) :
    Option (Subject × Bool) → Option MethodOutcome → List Exchange → Prop
  | unclaimed {o asked} : o ≠ some .instrumented → (∀ x ∈ asked, ¬ x.query.AboutBody) →
      Settled e none o asked
  | lost {s asked} : (∀ x ∈ asked, ¬ x.query.AboutBody) →
      Settled e (some (s, false)) (some .passedThrough) asked
  | left {s o asked} : o ≠ some .instrumented → asked.filterMap Exchange.accepted? = [] →
      Settled e (some (s, true)) o asked
  | installed {s body asked} : asked.filterMap Exchange.accepted? = [] → e.Approves s body asked →
      Settled e (some (s, true)) (some .instrumented)
        (asked ++ [⟨.install s.record.module s.props.token body, .ok ()⟩])

/-- A body is accepted exactly if the method is counted as instrumented. -/
theorem Settled.length_accepted {o : Option MethodOutcome} {asked : List Exchange}
    (hsettled : e.Settled claim? o asked) : (asked.filterMap Exchange.accepted?).length =
      if o = some .instrumented then 1 else 0 := by
  cases hsettled with
  | unclaimed ho hasked =>
    rw [accepted_eq_nil fun x hx => Query.notInstall_of_not_aboutBody (hasked x hx), if_neg ho]
    rfl
  | lost hasked =>
    rw [accepted_eq_nil fun x hx => Query.notInstall_of_not_aboutBody (hasked x hx)]
    rfl
  | left ho hasked =>
    rw [hasked, if_neg ho]
    rfl
  | installed hasked =>
    rw [List.filterMap_append, hasked]
    rfl

/-- What is asked before the claim, put before what is asked behind it. -/
theorem Settled.after {o : Option MethodOutcome} {before asked : List Exchange}
    (hbefore : before.filterMap Exchange.accepted? = [])
    (hsettled : e.Settled (some (s, true)) o asked) :
    e.Settled (some (s, true)) o (before ++ asked) := by
  cases hsettled with
  | left ho hasked =>
    refine .left ho ?_
    rw [List.filterMap_append, hbefore, hasked]
    rfl
  | installed hasked happroves =>
    rw [← List.append_assoc]
    refine .installed ?_ (happroves.append before)
    rw [List.filterMap_append, hbefore, hasked]
    rfl

/-- What comes before the claim does not touch any body. -/
theorem not_aboutBody_of_choosing {outcome : Except Error (Option (Option (Subject × Rule)))}
    (hruns : (e.choose function).run.Runs h deliver w outcome c w') :
    ∀ x ∈ c.exchanges, ¬ x.query.AboutBody := by
  have hconfined : (e.choose function).run.Confined (fun q => ¬ q.AboutBody) (fun _ _ => True)
      w.engine := confined_choose e function not_false (fun _ => not_false) _
  exact hconfined.query_of_mem hruns

theorem outcomeOf_error_ne (err : Error) : outcomeOf (.error err) ≠ some .instrumented := by
  rintro ⟨⟩

/-- The parts before the installation install nothing. -/
theorem accepted_of_confined {α : Type} {p : Proc EngineState α} {a : α}
    (hp : p.Confined Query.NotInstall (fun _ _ => True) w.engine)
    (hruns : p.Runs h deliver w a c w') : c.exchanges.filterMap Exchange.accepted? = [] :=
  accepted_eq_nil (hp.query_of_mem hruns)

theorem settled_of_installing {asked : List Exchange}
    (hasked : asked.filterMap Exchange.accepted? = []) (happroves : e.Approves s body asked)
    (hinstalling : Installing h deliver s body w r c w') :
    e.Settled (some (s, true)) (outcomeOf r) (asked ++ c.exchanges) := by
  cases hinstalling with
  | locked =>
    refine .left (outcomeOf_error_ne _) ?_
    rw [Course.exchanges_empty, List.append_nil]
    exact hasked
  | stopped =>
    refine .left (by decide) ?_
    rw [Course.exchanges_empty, List.append_nil]
    exact hasked
  | refused _ hanswer =>
    refine .left (outcomeOf_error_ne _) ?_
    rw [List.filterMap_append, hasked]
    show [(⟨_, (Proc.exchange h deliver _ w).1⟩ : Exchange)].filterMap Exchange.accepted? = []
    rw [hanswer]
    rfl
  | installed _ hanswer =>
    show e.Settled _ _ (asked ++ [⟨_, (Proc.exchange h deliver _ w).1⟩])
    rw [hanswer]
    exact .installed hasked happroves

theorem settled_of_instrumenting (hinstrumenting : Instrumenting h deliver e s rule w r c w') :
    e.Settled (some (s, true)) (outcomeOf r) c.exchanges := by
  -- nothing is installed by reading the method, probing it and checking what came of it
  have hread : ∀ {w w' c outcome}, (readMethod s).run.Runs h deliver w outcome c w' →
      c.exchanges.filterMap Exchange.accepted? = [] :=
    accepted_of_confined (confined_readMethod s trivial trivial _)
  have hprobe : ∀ {w w' c data locals outcome},
      (e.probing s rule data locals).run.Runs h deliver w outcome c w' →
      c.exchanges.filterMap Exchange.accepted? = [] :=
    accepted_of_confined
      (confined_probe_tokens _ _ _ trivial (fun _ => trivial) (fun _ _ _ => trivial) _)
  have hcheck : ∀ {w w' c body outcome}, (e.check s body).run.Runs h deliver w outcome c w' →
      c.exchanges.filterMap Exchange.accepted? = [] :=
    accepted_of_confined (confined_check e s _ trivial _)
  cases hinstrumenting with
  | unread hruns => exact .left (outcomeOf_error_ne _) (hread hruns)
  | unprobed hruns hruns' =>
    refine .left ?_ ?_
    · split
      · decide
      · exact outcomeOf_error_ne _
    · rw [Course.exchanges_append, List.filterMap_append, hread hruns, hprobe hruns']
      rfl
  | recognised hruns hruns' =>
    refine .left (by decide) ?_
    rw [Course.exchanges_append, List.filterMap_append, hread hruns, hprobe hruns']
    rfl
  | rejected hruns hruns' hruns'' =>
    refine .left (outcomeOf_error_ne _) ?_
    simp only [Course.exchanges_append, List.filterMap_append]
    rw [hread hruns, hprobe hruns', hcheck hruns'']
    rfl
  | accepted hruns hruns' hruns'' hinstalling =>
    simp only [Course.exchanges_append, ← List.append_assoc]
    refine settled_of_installing ?_ ((approves_of_runs hruns'').append _) hinstalling
    simp only [List.filterMap_append]
    rw [hread hruns, hprobe hruns', hcheck hruns'']
    rfl

theorem settled_of_compiling (hcompiling : Compiling h deliver e function w claim? r c w') :
    e.Settled claim? (outcomeOf r) c.exchanges := by
  cases hcompiling with
  | failed hchoose => exact .unclaimed (outcomeOf_error_ne _) (not_aboutBody_of_choosing hchoose)
  | dismissed hchoose => exact .unclaimed (by decide) (not_aboutBody_of_choosing hchoose)
  | unruled hchoose => exact .unclaimed (by decide) (not_aboutBody_of_choosing hchoose)
  | lost hchoose _ => exact .lost (not_aboutBody_of_choosing hchoose)
  | won hchoose _ hinstrumenting =>
    have hbefore := accepted_eq_nil fun x hx =>
      Query.notInstall_of_not_aboutBody (not_aboutBody_of_choosing hchoose x hx)
    exact (settled_of_instrumenting hinstrumenting).after hbefore

/-- So it is with every callback: only compilations touch bodies. -/
theorem settled_callback (e : Engine) (h : Host τ)
    (deliver : Event → World EngineState τ → World EngineState τ) (event : Event)
    (w : World EngineState τ) :
    e.Settled (e.callback h deliver event w).claim? (e.callback h deliver event w).outcome
      (e.callback h deliver event w).exchanges := by
  have hexchanges : ∀ {c status w'}, (e.handle event).Runs h deliver w status c w' →
      (e.callback h deliver event w).exchanges = c.exchanges := fun hruns =>
    congrArg Course.exchanges hruns.2
  cases hup : w.engine.tornDown with
  | true =>
    have hclaim : (e.callback h deliver event w).claim? = none := if_pos hup
    have houtcome : (e.callback h deliver event w).outcome = none := if_pos hup
    rw [hclaim, houtcome, hexchanges (handle_of_tornDown hup)]
    exact .unclaimed (by decide) fun x hx => absurd hx List.not_mem_nil
  | false =>
    by_cases hevent : event.kind = .compilation
    · cases event with
      | compiling function mayBlock =>
        obtain ⟨r, c, w₁, hcompiling, hhandle, houtcome⟩ :=
          compiling_of_callback e h deliver function mayBlock hup
        rw [houtcome, hexchanges hhandle]
        exact settled_of_compiling hcompiling
      | _ => cases hevent
    · obtain ⟨c, w', hact, hhandle⟩ := handle_of_running e h deliver event hup
      obtain ⟨hclaim, houtcome⟩ := callback_of_other e h deliver w hevent
      rw [hclaim, houtcome, hexchanges hhandle]
      have hconfined : (e.act event).Confined (fun q => ¬ q.AboutBody) (fun _ _ => True)
          (counted event w).engine :=
        confined_act hevent (fun _ => not_false) (fun _ => not_false) (fun _ _ _ => trivial)
          (fun _ _ _ => trivial) (fun _ _ _ => trivial) (fun _ _ => trivial) _
      exact .unclaimed (by decide) (hconfined.query_of_mem hact)

end Ways

end Engine

end CilProbe
