/-
CilProbe/Proofs/Engine/Accounting.lean

What an engine counts is what it did, whatever the runtime answers.  `FailOpen` says what
one callback may do: it is answered with success, and it installs a body exactly if it
counts its method as instrumented, which takes a claim that succeeded and a body that
passed the checks.  `Accounted` adds what holds of a run as a whole, from a fresh state on:
counts, claims and accepted bodies are those of the callbacks, at the end and at every
boundary in between.

Main result: `accounting`.
-/
import CilProbe.Proofs.Engine.Books

namespace CilProbe

open Engine

variable {τ : Type}

/-! ### One callback -/

/-- What every callback keeps to. -/
structure Callback.FailOpen (e : Engine) (c : Callback τ) : Prop where
  /-- It is answered with success. -/
  answered : c.status = .success
  /-- Only a function to be compiled has an outcome, and only before the engine is stopped. -/
  compiled : c.outcome ≠ none → c.event.kind = .compilation ∧ c.before.engine.tornDown = false
  /-- A body is accepted exactly if the method is counted as instrumented. -/
  accepted : c.installs.length = if c.outcome = some .instrumented then 1 else 0
  /-- Without a claim that succeeds no body is read or installed. -/
  untouched : (∀ s, c.claim? ≠ some (s, true)) → ∀ x ∈ c.exchanges, ¬ x.query.AboutBody
  /-- A claim that does not succeed means that there is nothing to do. -/
  passed : ∀ s, c.claim? = some (s, false) → c.outcome = some .passedThrough
  /-- A body that is accepted is one for the method that was claimed, and has been approved. -/
  approved : ∀ i ∈ c.installs, ∃ s asked, c.claim? = some (s, true) ∧
    i = ⟨s.record.module, s.props.token, i.body⟩ ∧
    c.exchanges = asked ++ [⟨.install i.module i.method i.body, .ok ()⟩] ∧
    e.Approves s i.body asked

namespace Engine

variable {h : Host τ} {deliver : Event → World EngineState τ → World EngineState τ}

theorem status_of_handle (e : Engine) (event : Event) (w : World EngineState τ) :
    ((e.handle event).run h deliver w).1 = .success := by
  cases hup : w.engine.tornDown with
  | true =>
    obtain ⟨hrun, -⟩ : (e.handle event).Runs h deliver w .success .empty w := handle_of_tornDown hup
    rw [hrun]
  | false =>
    obtain ⟨c, w', -, hrun, -⟩ := handle_of_running e h deliver event hup
    rw [hrun]

theorem Settled.approved {e : Engine} {claim? : Option (Subject × Bool)}
    {o : Option MethodOutcome} {xs : List Exchange} (hsettled : e.Settled claim? o xs) :
    ∀ i ∈ xs.filterMap Exchange.accepted?, ∃ s asked, claim? = some (s, true) ∧
      i = ⟨s.record.module, s.props.token, i.body⟩ ∧
      xs = asked ++ [⟨.install i.module i.method i.body, .ok ()⟩] ∧ e.Approves s i.body asked := by
  cases hsettled with
  | unclaimed _ hasked =>
    rw [accepted_eq_nil fun x hx => Query.notInstall_of_not_aboutBody (hasked x hx)]
    exact fun i hi => absurd hi List.not_mem_nil
  | lost hasked =>
    rw [accepted_eq_nil fun x hx => Query.notInstall_of_not_aboutBody (hasked x hx)]
    exact fun i hi => absurd hi List.not_mem_nil
  | left _ hasked =>
    rw [hasked]
    exact fun i hi => absurd hi List.not_mem_nil
  | @installed s body asked hasked happroves =>
    intro i hi
    rw [List.filterMap_append, hasked] at hi
    obtain rfl := List.mem_singleton.mp hi
    exact ⟨s, asked, rfl, rfl, rfl, happroves⟩

theorem Settled.untouched {e : Engine} {claim? : Option (Subject × Bool)}
    {o : Option MethodOutcome} {xs : List Exchange} (hsettled : e.Settled claim? o xs)
    (hclaim : ∀ s, claim? ≠ some (s, true)) : ∀ x ∈ xs, ¬ x.query.AboutBody := by
  cases hsettled with
  | unclaimed _ hasked => exact hasked
  | lost hasked => exact hasked
  | left => exact absurd rfl (hclaim _)
  | installed => exact absurd rfl (hclaim _)

theorem Settled.passed {e : Engine} {claim? : Option (Subject × Bool)} {o : Option MethodOutcome}
    {xs : List Exchange} {s : Subject} (hsettled : e.Settled claim? o xs)
    (hclaim : claim? = some (s, false)) : o = some .passedThrough := by
  cases hsettled with
  | lost => rfl
  | _ => cases hclaim

theorem failOpen_callback (e : Engine) (h : Host τ)
    (deliver : Event → World EngineState τ → World EngineState τ) (event : Event)
    (w : World EngineState τ) : (e.callback h deliver event w).FailOpen e := by
  have hsettled := settled_callback e h deliver event w
  refine ⟨status_of_handle e event w, fun houtcome => ⟨?_, ?_⟩, hsettled.length_accepted,
    hsettled.untouched, fun s => hsettled.passed, hsettled.approved⟩
  · apply Decidable.byContradiction
    intro hevent
    exact houtcome (callback_of_other e h deliver w hevent).2
  · show w.engine.tornDown = false
    cases hup : w.engine.tornDown with
    | true => exact absurd (if_pos hup) houtcome
    | false => rfl

end Engine

/-! ### All of them -/

/-- The number of claims in the statistics is that of the methods claimed in the live records,
each counted once. -/
def ClaimsCounted (s : EngineState) : Prop :=
  ∃ methods : List (ModuleId × Token), methods.Nodup ∧ methods.length = s.stats.claimed ∧
    ∀ m method, (m, method) ∈ methods ↔
      ∃ id r, s.find? m = some (id, r) ∧ r.claims.contains method = true

/-- What holds of the callbacks of a whole run, from a fresh state on. -/
structure Accounted (e : Engine) {h : Host τ} (ledger : h.Ledger) (w : World EngineState τ)
    (cs : List (Callback τ)) (w' : World EngineState τ) : Prop where
  /-- Every callback keeps to the rules. -/
  callbacks : ∀ c ∈ cs, c.FailOpen e
  /-- Every event before the engine is stopped is counted once. -/
  events : ∀ k, w'.engine.events.get k = cs.countP (·.counts k)
  /-- Outcomes are counted once for a callback at most. -/
  outcomes : ∀ o, w'.engine.outcomes.get o = cs.countP (·.outcome == some o)
  /-- The bodies that the runtime accepted are those that callbacks installed. -/
  installs : ledger.installs w'.host = ledger.installs w.host ++ cs.flatMap (·.installs)
  /-- At every boundary as many bodies have been accepted as methods are counted as
  instrumented. -/
  balanced : ∀ v, v = w' ∨ (∃ c ∈ cs, v = c.before ∨ v = c.after) →
    (ledger.installs v.host).length =
      (ledger.installs w.host).length + v.engine.outcomes.instrumented
  /-- No method of a record is claimed with success by two callbacks. -/
  once : ∀ id method, cs.countP (·.claims id method) ≤ 1
  /-- What is claimed in a record was claimed by a callback, and the other way round. -/
  claims : ∀ id method, w'.engine.hasClaim id method = true ↔ ∃ c ∈ cs, c.claims id method = true
  /-- At every boundary the statistics count the claims. -/
  stats : ∀ v, v = w' ∨ (∃ c ∈ cs, v = c.before ∨ v = c.after) → ClaimsCounted v.engine

/-- Every run of an engine, on any runtime and for any events, is accounted for. -/
theorem accounting (e : Engine) (h : Host τ) (ledger : h.Ledger) (depth : Nat)
    (events : List Event) (retryLimit : Nat) (t : τ) :
    Accounted e ledger ⟨.fresh retryLimit, t⟩ (e.histories h depth events ⟨.fresh retryLimit, t⟩)
      (e.deliverAll h depth events ⟨.fresh retryLimit, t⟩) := by
  have hbooked := booked_histories e h ledger (ledger.installs t).length depth events
    ⟨.fresh retryLimit, t⟩
  obtain ⟨hbalanced, hboundaries⟩ := hbooked.balanced rfl
  -- at the beginning nothing is claimed, so what is claimed was claimed by a callback
  have hclaims : ∀ id method,
      ((e.deliverAll h depth events ⟨.fresh retryLimit, t⟩).engine.hasClaim id method).toNat =
        (e.histories h depth events ⟨.fresh retryLimit, t⟩).countP (·.claims id method) := by
    intro id method
    rw [hbooked.claims]
    exact Nat.zero_add _
  refine ⟨fun c hc => ?_, fun k => ?_, fun o => ?_, hbooked.installs, ?_, fun id method => ?_,
    fun id method => ?_, fun v _ => v.engine.claimed_stats⟩
  · obtain ⟨deliver, event, w, rfl⟩ := exists_of_mem_histories hc
    exact failOpen_callback e h deliver event w
  · rw [hbooked.events]
    cases k <;> exact Nat.zero_add _
  · rw [hbooked.outcomes]
    cases o <;> exact Nat.zero_add _
  · rintro v (rfl | ⟨c, hc, rfl | rfl⟩)
    · exact hbalanced
    · exact (hboundaries c hc).1
    · exact (hboundaries c hc).2
  · rw [← hclaims]
    exact Bool.toNat_le _
  · rw [← List.countP_pos_iff, ← hclaims]
    cases (e.deliverAll h depth events ⟨.fresh retryLimit, t⟩).engine.hasClaim id method with
    | true => exact ⟨fun _ => Nat.one_pos, fun _ => rfl⟩
    | false => exact ⟨nofun, nofun⟩

end CilProbe
