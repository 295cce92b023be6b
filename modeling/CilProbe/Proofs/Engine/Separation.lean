/-
CilProbe/Proofs/Engine/Separation.lean

Modules have nothing to do with each other.  A cue that is about a module does the same in two
stages which match as far as that module is concerned, and spares all other modules
(`perform_own`); the end of an assembly or of the runtime does the same in both for every module
(`perform_shared`).  So a run stays matched with what it is without the cues that have nothing to
do with the module (`matches_alone`), and there is the same to see of it (`modules_apart`).

The invariant is that every stage of a run matches itself, module by module
(`Stage.Divided`): that is what tells one module's pending questions from another's.
-/
import Mathlib
import CilProbe.Proofs.Engine.Mirrors

namespace CilProbe

open EngineState

/-! ### Stages that match -/

section

variable (r : Runtime) (m : ModuleId)

/-- Two events wait for the answer to the same question, and go on alike behind it. -/
inductive Pause.Mirrors (π : Pairing) : Pause → Pause → Prop
  | intro {q next next'} : r.subject q = some m →
    (∀ a ρ t t', r.Truthful q a → π.Within ρ → t.Matches m ρ t' →
      Proc.Mirrors r m (fun _ => Eq) ρ t t' (next a) (next' a)) → Mirrors π ⟨q, next⟩ ⟨q, next'⟩

namespace Stage

/-- Two stages that are the same as far as a module is concerned. -/
structure Matches (π : Pairing) (x y : Stage) : Prop where
  state : x.state.Matches m π y.state
  waiting (k : Nat) :
    Option.Rel (Pause.Mirrors r m π) (x.waiting (some m))[k]? (y.waiting (some m))[k]?
  calls : r.callsAbout (some m) x.calls = r.callsAbout (some m) y.calls

/-- Something happens that has nothing to do with a module. -/
structure Spares (x x' : Stage) : Prop where
  state : x.state.Spares m x'.state
  waiting : x'.waiting (some m) = x.waiting (some m)
  calls : r.callsAbout (some m) x'.calls = r.callsAbout (some m) x.calls

/-- Something happens that has to do with one module at most. -/
structure Changes (x x' : Stage) : Prop where
  spares {m' : ModuleId} : m' ≠ m → Spares r m' x x'
  idle : x'.waiting none = x.waiting none

end Stage

end

variable {r : Runtime} {m : ModuleId} {π : Pairing}

theorem Pause.Mirrors.within {ρ : Pairing} {f f' : Pause} (h : f.Mirrors r m π f')
    (hρ : π.Within ρ) : f.Mirrors r m ρ f' := by
  cases h with
  | intro hq hnext => exact .intro hq fun a σ t t' ha hσ => hnext a σ t t' ha (hρ.trans hσ)

theorem Pause.Mirrors.within? {ρ : Pairing} {f f' : Option Pause}
    (h : Option.Rel (Pause.Mirrors r m π) f f') (hρ : π.Within ρ) :
    Option.Rel (Pause.Mirrors r m ρ) f f' := by
  cases h with
  | none => exact .none
  | some hf => exact .some (hf.within hρ)

namespace Stage

variable {x x' y y' : Stage}

theorem Spares.trans {x'' : Stage} (h : Spares r m x x') (h' : Spares r m x' x'') :
    Spares r m x x'' :=
  ⟨h.state.trans h'.state, h'.waiting.trans h.waiting, h'.calls.trans h.calls⟩

theorem Changes.refl (x : Stage) : Changes r m x x :=
  ⟨fun {m'} _ => ⟨.refl m' x.state, rfl, rfl⟩, rfl⟩

theorem Changes.trans {x'' : Stage} (h : Changes r m x x') (h' : Changes r m x' x'') :
    Changes r m x x'' :=
  ⟨fun hm => (h.spares hm).trans (h'.spares hm), h'.idle.trans h.idle⟩

theorem Matches.left (h : Matches r m π x y) (hx : Spares r m x x') : Matches r m π x' y :=
  ⟨h.state.left hx.state, hx.waiting ▸ h.waiting, hx.calls.trans h.calls⟩

theorem Matches.right (h : Matches r m π x y) (hy : Spares r m y y') : Matches r m π x y' :=
  ⟨h.state.right hy.state, hy.waiting ▸ h.waiting, h.calls.trans hy.calls.symm⟩

/-- There is the same to see of the module. -/
theorem Matches.view (h : Matches r m π x y) : r.view m x = r.view m y := by
  unfold Runtime.view
  rw [h.calls, h.state.emitter_find?]
  congr 1
  exact h.state.plain_find?

/-! ### Turns -/

theorem matches_fresh (r : Runtime) (m : ModuleId) (retryLimit : Nat) :
    Matches r m .empty (fresh retryLimit) (fresh retryLimit) :=
  ⟨EngineState.matches_fresh m retryLimit, fun _ => .none, rfl⟩

theorem Matches.note (h : Matches r m π x y) (c : Call) : Matches r m π (x.note c) (y.note c) := by
  refine ⟨h.state, h.waiting, ?_⟩
  show r.callsAbout (some m) (x.calls ++ [c]) = r.callsAbout (some m) (y.calls ++ [c])
  unfold Runtime.callsAbout
  rw [List.filter_append, List.filter_append]
  exact congrArg (· ++ _) h.calls

theorem spares_note {c : Call} (hc : r.about c ≠ some m) (x : Stage) : Spares r m x (x.note c) := by
  refine ⟨.refl m x.state, rfl, ?_⟩
  show r.callsAbout (some m) (x.calls ++ [c]) = _
  unfold Runtime.callsAbout
  have hnone : [c].filter (fun c => r.about c == some m) = [] :=
    List.filter_cons_of_neg (mt eq_of_beq hc)
  rw [List.filter_append, hnone, List.append_nil]

theorem changes_note {c : Call} (hc : r.about c = some m) (x : Stage) : Changes r m x (x.note c) :=
  ⟨fun hm => spares_note (fun hc' => hm (Option.some.inj (hc'.symm.trans hc))) x, rfl⟩

theorem Matches.wake (h : Matches r m π x y) (k : Nat) :
    Matches r m π (x.wake (some m) k) (y.wake (some m) k) := by
  refine ⟨h.state, fun j => ?_, h.calls⟩
  unfold Stage.wake
  dsimp only
  rw [Function.update_self, Function.update_self, List.getElem?_eraseIdx, List.getElem?_eraseIdx]
  split
  · exact h.waiting j
  · exact h.waiting (j + 1)

theorem changes_wake (m : ModuleId) (k : Nat) (x : Stage) : Changes r m x (x.wake (some m) k) where
  spares {m'} hm := ⟨.refl m' x.state, Function.update_of_ne (by simpa using hm) _ _, rfl⟩
  idle := rfl

/-- An event that has to do with one module goes on, in two stages which are the same as far as that
module is concerned. -/
theorem Matches.goOn (h : Matches r m π x y) {p p' : Proc EngineState StatusCode}
    (hp : Proc.Mirrors r m (fun _ => Eq) π x.state y.state p p') :
    (∃ ρ, Matches r m ρ (x.goOn (some m) p) (y.goOn (some m) p')) ∧
      Changes r m x (x.goOn (some m) p) := by
  obtain ⟨ρ, hρ, hstate, hchanges, -, hrest⟩ := hp.settle h.state
  have hwaiting := fun k => Pause.Mirrors.within? (h.waiting k) hρ
  unfold Stage.goOn
  generalize p.settle x.state = out, p'.settle y.state = out' at hstate hchanges hrest
  obtain ⟨rest, t⟩ := out
  obtain ⟨rest', t'⟩ := out'
  cases hrest with
  | done _ => exact ⟨⟨ρ, hstate, hwaiting, h.calls⟩, fun {m'} hm => ⟨hchanges m' hm, rfl, rfl⟩, rfl⟩
  | @ask q next next' hq hnext =>
    -- the question is about the module, so nothing else changes for any other one
    have hcalls := (h.note (.asked q)).calls
    refine ⟨⟨ρ, hstate, fun k => ?_, hcalls⟩, fun {m'} hm => ⟨hchanges m' hm, ?_, ?_⟩, rfl⟩
    · dsimp only
      rw [Function.update_self, Function.update_self]
      cases k with
      | zero => exact .some (.intro hq hnext)
      | succ k => exact hwaiting k
    · exact Function.update_of_ne (by simpa using hm) _ _
    · exact ((changes_note (c := .asked q) hq x).spares hm).calls

end Stage

/-! ### Cues -/

namespace Engine

variable {e : Engine} {x y : Stage}

/-- What happens at a cue that is about a module. -/
theorem perform_own (h : x.Matches r m π y) {cue : Cue} (hcue : r.target cue = some m) :
    (∃ ρ, (e.perform r x cue).Matches r m ρ (e.perform r y cue)) ∧
      x.Changes r m (e.perform r x cue) := by
  cases cue with
  | deliver event =>
    have hevent : r.module? event = some m := hcue
    have hnoted := h.note (.told event)
    have hgoes := hnoted.goOn (mirrors_handle e hevent hnoted.state)
    rw [← hevent] at hgoes
    exact ⟨hgoes.1, (Stage.changes_note (c := .told event) hevent x).trans hgoes.2⟩
  | answer subject k =>
    obtain rfl : subject = some m := hcue
    have hk := h.waiting k
    simp only [perform]
    generalize (x.waiting (some m))[k]? = f, (y.waiting (some m))[k]? = f' at hk
    cases hk with
    | none => exact ⟨⟨π, h⟩, .refl x⟩
    | @some f f' hf =>
      cases hf with
      | @intro q next next' hq hnext =>
        -- the runtime cannot tell the stages apart by the calls about the module
        have hanswer : r.answer x.calls q = r.answer y.calls q := by
          unfold Runtime.answer
          rw [hq, h.calls]
        dsimp only
        rw [← hanswer]
        have hnoted := (h.wake k).note (.answered ⟨q, r.answer x.calls q⟩)
        have hgoes := hnoted.goOn
          (hnext _ π _ _ (r.truthful_answer x.calls q) (.refl π) hnoted.state)
        exact ⟨hgoes.1, (Stage.changes_wake m k x).trans <|
          (Stage.changes_note (c := .answered ⟨q, _⟩) hq _).trans hgoes.2⟩

/-- What happens at an event that changes the state and asks nothing. -/
theorem perform_eq {event : Event} {f : EngineState → EngineState}
    (hact : e.act event = .read fun s => .write (f s) (.done ())) (x : Stage) :
    e.perform r x (.deliver event) =
      ⟨if x.state.tornDown then x.state else f (x.state.countEvent event.kind), x.waiting,
        x.calls ++ [.told event]⟩ := by
  have hsettle : (e.handle event).settle x.state = (.done .success,
      if x.state.tornDown then x.state else f (x.state.countEvent event.kind)) := by
    rw [handle_eq, hact]
    show (if x.state.tornDown then _ else _ : Proc EngineState StatusCode).settle x.state = _
    split <;> rfl
  have hnoted : (e.handle event).settle (x.note (.told event)).state = (.done .success,
      if x.state.tornDown then x.state else f (x.state.countEvent event.kind)) := hsettle
  show (x.note (.told event)).goOn (r.module? event) (e.handle event) = _
  unfold Stage.goOn
  rw [hnoted]
  rfl

theorem perform_assembly (a : AssemblyId) (x : Stage) :
    e.perform r x (.deliver (.assemblyUnloading a)) =
      ⟨if x.state.tornDown then x.state
        else (x.state.countEvent .assemblyUnload).removeAssembly a, x.waiting,
        x.calls ++ [.told (.assemblyUnloading a)]⟩ :=
  perform_eq (f := fun s => s.removeAssembly a) rfl x

theorem perform_shutdown (x : Stage) :
    e.perform r x (.deliver .shuttingDown) =
      ⟨if x.state.tornDown then x.state else (x.state.countEvent .shutdown).tearDown.2, x.waiting,
        x.calls ++ [.told .shuttingDown]⟩ :=
  perform_eq (f := fun s => s.tearDown.2) rfl x

/-- Nothing waits behind an event that is about no module. -/
theorem waiting_perform {event : Event} (hevent : r.module? event = none) (x : Stage) :
    (e.perform r x (.deliver event)).waiting = x.waiting := by
  cases event with
  | assemblyUnloading a => rw [perform_assembly]
  | shuttingDown => rw [perform_shutdown]
  | _ => cases hevent

/-- What happens at an event that is about no module. -/
theorem perform_shared (hx : x.state.Filed) (hy : y.state.Filed) (h : x.Matches r m π y)
    {event : Event} (hevent : r.module? event = none) :
    (e.perform r x (.deliver event)).Matches r m π (e.perform r y (.deliver event)) := by
  have hcounted : (x.state.countEvent event.kind).Matches m π (y.state.countEvent event.kind) :=
    h.state.counts
  have hcalls := (h.note (.told event)).calls
  cases event with
  | assemblyUnloading a =>
    rw [perform_assembly, perform_assembly, ← h.state.tornDown]
    refine ⟨?_, h.waiting, hcalls⟩
    dsimp only
    split
    · exact h.state
    · exact hcounted.removeAssembly hx hy a
  | shuttingDown =>
    rw [perform_shutdown, perform_shutdown, ← h.state.tornDown]
    refine ⟨?_, h.waiting, hcalls⟩
    dsimp only
    split
    · exact h.state
    · exact hcounted.tearDown
  | _ => cases hevent

/-- The end of an assembly that a module is not recorded in has nothing to do with it. -/
theorem spares_assembly (hx : x.state.Filed) {a : AssemblyId} (hm : ¬ x.state.RecordedIn m a) :
    x.Spares r m (e.perform r x (.deliver (.assemblyUnloading a))) := by
  have hnoted := Stage.spares_note (m := m) (r := r) (c := .told (.assemblyUnloading a)) nofun x
  rw [perform_assembly]
  refine ⟨?_, hnoted.waiting, hnoted.calls⟩
  dsimp only
  split
  · exact .refl m x.state
  · have hcounted : EngineState.Spares m x.state (x.state.countEvent .assemblyUnload) :=
      spares_counts m x.state
    exact hcounted.trans (spares_removeAssembly (s := x.state.countEvent .assemblyUnload) hx hm)

end Engine

/-! ### Runs -/

/-- A stage in which the modules have nothing to do with each other. -/
structure Stage.Divided (r : Runtime) (x : Stage) : Prop where
  apart (m : ModuleId) : ∃ π, x.Matches r m π x
  idle : x.waiting none = []

namespace Engine

variable {e : Engine} {x y : Stage}

theorem divided_fresh (r : Runtime) (retryLimit : Nat) : (Stage.fresh retryLimit).Divided r :=
  ⟨fun m => ⟨.empty, Stage.matches_fresh r m retryLimit⟩, rfl⟩

theorem filed_of_divided (hx : x.Divided r) : x.state.Filed := by
  intro m id hid
  obtain ⟨π, hmatches⟩ := hx.apart m
  have hlive := hmatches.state.live
  rw [hid] at hlive
  cases hlive with
  | some hij =>
    obtain ⟨r, -, hr, -, hm, -⟩ := hmatches.state.records hij
    exact ⟨r, hr, hm⟩

/-- A question about no module is never pending. -/
theorem perform_idle (hx : x.waiting none = []) (k : Nat) : e.perform r x (.answer none k) = x := by
  simp only [perform, hx, List.getElem?_nil]

theorem divided_perform (hx : x.Divided r) (cue : Cue) : (e.perform r x cue).Divided r := by
  cases htarget : r.target cue with
  | some m =>
    obtain ⟨π, hm⟩ := hx.apart m
    obtain ⟨hown, hchanges⟩ := perform_own (e := e) hm htarget
    refine ⟨fun m' => ?_, hchanges.idle.trans hx.idle⟩
    -- the module that the cue is about stays matched; another one is spared on either side
    by_cases hne : m' = m
    · exact hne ▸ hown
    · obtain ⟨π', hm'⟩ := hx.apart m'
      exact ⟨π', (hm'.left (hchanges.spares hne)).right (hchanges.spares hne)⟩
  | none =>
    cases cue with
    | deliver event =>
      refine ⟨fun m => ?_, (congrFun (waiting_perform htarget x) none).trans hx.idle⟩
      obtain ⟨π, hm⟩ := hx.apart m
      exact ⟨π, perform_shared (filed_of_divided hx) (filed_of_divided hx) hm htarget⟩
    | answer subject k =>
      obtain rfl : subject = none := htarget
      rw [perform_idle hx.idle]
      exact hx

/-- Those cues that are about some module have to do with that module only. -/
theorem concerns_eq {cue : Cue} (hcue : r.target cue ≠ none) {s : EngineState} :
    r.concerns m s cue = (r.target cue == some m) := by
  cases cue with
  | answer subject k => rfl
  | deliver event =>
    cases event with
    | assemblyUnloading a => exact absurd rfl hcue
    | shuttingDown => exact absurd rfl hcue
    | _ => rfl

/-- A cue that has to do with a module does the same in two stages that match. -/
theorem perform_concerning (hx : x.Divided r) (hy : y.Divided r) (h : x.Matches r m π y) {cue : Cue}
    (hcue : r.concerns m x.state cue = true) :
    ∃ ρ, (e.perform r x cue).Matches r m ρ (e.perform r y cue) := by
  cases htarget : r.target cue with
  | none =>
    cases cue with
    | deliver event =>
      exact ⟨π, perform_shared (filed_of_divided hx) (filed_of_divided hy) h htarget⟩
    | answer subject k =>
      obtain rfl : subject = none := htarget
      cases hcue
  | some m' =>
    rw [concerns_eq (htarget ▸ Option.some_ne_none m')] at hcue
    exact (perform_own h (eq_of_beq hcue)).1

/-- A cue that has nothing to do with a module spares it. -/
theorem perform_unconcerning (hx : x.Divided r) {cue : Cue}
    (hcue : ¬ r.concerns m x.state cue = true) : x.Spares r m (e.perform r x cue) := by
  cases htarget : r.target cue with
  | none =>
    cases cue with
    | deliver event =>
      cases event with
      | assemblyUnloading a =>
        refine spares_assembly (filed_of_divided hx) fun ⟨id, record, hfind, ha⟩ => hcue ?_
        show (x.state.find? m).any _ = true
        rw [hfind]
        exact beq_iff_eq.mpr ha
      | shuttingDown => exact absurd rfl hcue
      | _ => cases htarget
    | answer subject k =>
      obtain rfl : subject = none := htarget
      rw [perform_idle hx.idle]
      exact ⟨.refl m x.state, rfl, rfl⟩
  | some m' =>
    obtain ⟨π, hm'⟩ := hx.apart m'
    refine (perform_own hm' htarget).2.spares fun hm => hcue ?_
    rw [concerns_eq (htarget ▸ Option.some_ne_none m')]
    exact beq_iff_eq.mpr (hm ▸ htarget)

/-- A run and what has to do with a module in it. -/
theorem matches_alone (cues : List Cue) (hx : x.Divided r) (hy : y.Divided r)
    (h : x.Matches r m π y) :
    ∃ ρ, (e.performs r x cues).Matches r m ρ (e.performs r y (e.alone r m x cues)) := by
  induction cues generalizing x y π with
  | nil => exact ⟨π, h⟩
  | cons cue cues ih =>
    unfold alone
    split
    · next hcue =>
      obtain ⟨ρ, hρ⟩ := perform_concerning (e := e) hx hy h hcue
      exact ih (divided_perform hx cue) (divided_perform hy cue) hρ
    · next hcue =>
      -- the cue is left out, and the stage without it stays where it is
      exact ih (divided_perform hx cue) hy (h.left (perform_unconcerning hx hcue))

/-- Of cues that are about some module each, those remain that are about the module. -/
theorem alone_eq_filter {cues : List Cue} (hcues : ∀ cue ∈ cues, r.target cue ≠ none) (x : Stage) :
    e.alone r m x cues = cues.filter fun cue => r.target cue == some m := by
  induction cues generalizing x with
  | nil => rfl
  | cons cue cues ih =>
    obtain ⟨hcue, hcues⟩ := List.forall_mem_cons.mp hcues
    unfold alone
    rw [concerns_eq hcue, List.filter_cons, ih hcues]

/-- Modules do not influence each other.  What there is to see of a module after a run is what there
is to see of it after those cues alone that have to do with it; so two modules can be dealt with in
any order that keeps the order for each of them. -/
theorem modules_apart (e : Engine) (r : Runtime) (retryLimit : Nat) :
    (∀ m cues, r.view m (e.performs r (.fresh retryLimit) (e.alone r m (.fresh retryLimit) cues)) =
      r.view m (e.performs r (.fresh retryLimit) cues)) ∧
    ∀ m₁ m₂ cues₁ cues₂ cues, m₁ ≠ m₂ → (∀ cue ∈ cues₁, r.target cue = some m₁) →
      (∀ cue ∈ cues₂, r.target cue = some m₂) → Interleaves cues₁ cues₂ cues →
      r.view m₁ (e.performs r (.fresh retryLimit) cues) =
          r.view m₁ (e.performs r (.fresh retryLimit) cues₁) ∧
        r.view m₂ (e.performs r (.fresh retryLimit) cues) =
          r.view m₂ (e.performs r (.fresh retryLimit) cues₂) := by
  have halone : ∀ m cues,
      r.view m (e.performs r (.fresh retryLimit) (e.alone r m (.fresh retryLimit) cues)) =
        r.view m (e.performs r (.fresh retryLimit) cues) := by
    intro m cues
    obtain ⟨ρ, hρ⟩ := matches_alone (e := e) cues (divided_fresh r retryLimit)
      (divided_fresh r retryLimit) (Stage.matches_fresh r m retryLimit)
    exact hρ.view.symm
  refine ⟨halone, fun m₁ m₂ cues₁ cues₂ cues hne h₁ h₂ hcues => ?_⟩
  have htargets : ∀ cue ∈ cues, r.target cue ≠ none := fun cue hcue => by
    rcases hcues.mem_iff.mp hcue with hcue | hcue
    · exact h₁ cue hcue ▸ Option.some_ne_none m₁
    · exact h₂ cue hcue ▸ Option.some_ne_none m₂
  have hfilter₁ : (cues.filter fun cue => r.target cue == some m₁) = cues₁ :=
    hcues.filter_eq (fun cue hcue => beq_iff_eq.mpr (h₁ cue hcue)) fun cue hcue => by
      simpa [h₂ cue hcue] using hne.symm
  have hfilter₂ : (cues.filter fun cue => r.target cue == some m₂) = cues₂ :=
    hcues.swap.filter_eq (fun cue hcue => beq_iff_eq.mpr (h₂ cue hcue)) fun cue hcue => by
      simpa [h₁ cue hcue] using hne
  rw [← halone m₁ cues, ← halone m₂ cues, alone_eq_filter htargets, alone_eq_filter htargets,
    hfilter₁, hfilter₂]
  exact ⟨rfl, rfl⟩

/-! ### Two modules -/

/-- A runtime with modules that have one method each and are alike in everything else. -/
def constantRuntime : Runtime where
  home function := function
  reply past
    | .functionInfo function => .ok ⟨function, ⟨0x06000001⟩⟩
    | .moduleInfo _ => .ok constantFacts.info
    | .openMetadata _ => .ok ()
    | .metadata _ => constantFacts.view
    | .define _ _ => .ok ⟨0x0A000000 + past.length.toUInt32⟩
    | .readBody _ _ => .ok [0x0A, 0x16, 0x2A]
    | .install _ _ _ => .ok ()
    | .version => .error .outOfBounds
    | .inspection => .ok ()
    | .register _ => .ok ()
    | .unregister => .ok ()
  home_reply _ function _ hinfo := by
    cases hinfo
    rfl

/-- What there is to see of one of them after a run. -/
def constantView (m : ModuleId) (cues : List Cue) : ModuleView :=
  constantRuntime.view m (constantEngine.performs constantRuntime (.fresh 3) cues)

/-- A module is loaded, and the questions about it are answered. -/
def loading (m : ModuleId) : List Cue :=
  [.deliver (.moduleLoaded m .success), .answer (some m) 0, .answer (some m) 0]

/-- Its method is compiled, and the first question about it is answered. -/
def compiling (m : ModuleId) : List Cue := [.deliver (.compiling m true), .answer (some m) 0]

/-- Two modules are loaded at once, and a method of the one is compiled before the other one is
loaded; both are recorded, and as they are without each other. -/
theorem modules_apart_at_once : ∃ cues, Interleaves (loading 1 ++ compiling 1) (loading 2) cues ∧
    constantView 1 cues = constantView 1 (loading 1 ++ compiling 1) ∧
    constantView 2 cues = constantView 2 (loading 2) ∧
    (constantView 1 cues).record.isSome ∧ (constantView 2 cues).record.isSome := by
  have hcues : Interleaves (loading 1 ++ compiling 1) (loading 2) _ :=
    .first _ <| .second _ <| .second _ <| .first _ <| .first _ <| .first _ <| .first _ <|
      .second _ .nil
  obtain ⟨hfirst, hsecond⟩ :
      constantView 1 _ = constantView 1 _ ∧ constantView 2 _ = constantView 2 _ :=
    (modules_apart constantEngine constantRuntime 3).2 1 2 _ _ _ (by decide) (by decide) (by decide)
      hcues
  refine ⟨_, hcues, hfirst, hsecond, ?_, ?_⟩
  · rw [hfirst]
    cbv
  · rw [hsecond]
    cbv

end Engine

end CilProbe
