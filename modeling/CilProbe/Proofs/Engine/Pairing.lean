/-
CilProbe/Proofs/Engine/Pairing.lean

Two states that are the same as far as one module is concerned.  Records and token caches
have numbers, and the numbers of one module depend on what happened to the others; so a
`Pairing` says which number in the one state goes with which in the other, and
`EngineState.Matches` that what goes together is the same.  A change that has to do with the
module can be made to both states (`Matches.claim`, `Matches.record`, `Matches.enroll`, ...);
any other change `Spares` the module, and can be made to one of them alone.
-/
import CilProbe.Proofs.Engine.Loaded

namespace CilProbe

/-! ### Pairings -/

/-- Which records and token caches in one state go with which in another; no two go with one. -/
structure Pairing where
  /-- Records that go together. -/
  records : RecordId → RecordId → Prop
  /-- Token caches that go together. -/
  caches : CacheId → CacheId → Prop
  records_iff : ∀ {i j i' j'}, records i j → records i' j' → (i = i' ↔ j = j')
  caches_iff : ∀ {c d c' d'}, caches c d → caches c' d' → (c = c' ↔ d = d')

namespace Pairing

/-- Nothing goes together. -/
def empty : Pairing := ⟨fun _ _ => False, fun _ _ => False, False.elim, False.elim⟩

/-- What goes together in the one pairing does so in the other. -/
def Within (π ρ : Pairing) : Prop :=
  (∀ {i j}, π.records i j → ρ.records i j) ∧ ∀ {c d}, π.caches c d → ρ.caches c d

theorem Within.refl (π : Pairing) : π.Within π := ⟨id, id⟩

theorem Within.trans {π ρ σ : Pairing} (h : π.Within ρ) (h' : ρ.Within σ) : π.Within σ :=
  ⟨h'.1 ∘ h.1, h'.2 ∘ h.2⟩

/-- One more pair can be made of things that go with nothing yet. -/
theorem iff_or {R : Nat → Nat → Prop} {i j : Nat}
    (hR : ∀ {a b a' b'}, R a b → R a' b' → (a = a' ↔ b = b'))
    (hnew : ∀ a b, R a b → a ≠ i ∧ b ≠ j) {a b a' b' : Nat} (h : R a b ∨ a = i ∧ b = j)
    (h' : R a' b' ∨ a' = i ∧ b' = j) : a = a' ↔ b = b' := by
  rcases h with h | ⟨rfl, rfl⟩
  · rcases h' with h' | ⟨rfl, rfl⟩
    · exact hR h h'
    · exact iff_of_false (hnew a b h).1 (hnew a b h).2
  · rcases h' with h' | ⟨rfl, rfl⟩
    · exact iff_of_false (hnew a' b' h').1.symm (hnew a' b' h').2.symm
    · exact iff_of_true rfl rfl

variable (π : Pairing)

/-- Two more records go together. -/
def withRecords (i j : RecordId) (hnew : ∀ a b, π.records a b → a ≠ i ∧ b ≠ j) : Pairing where
  records a b := π.records a b ∨ a = i ∧ b = j
  caches := π.caches
  records_iff := iff_or π.records_iff hnew
  caches_iff := π.caches_iff

/-- Two more token caches go together. -/
def withCaches (c d : CacheId) (hnew : ∀ a b, π.caches a b → a ≠ c ∧ b ≠ d) : Pairing where
  records := π.records
  caches a b := π.caches a b ∨ a = c ∧ b = d
  records_iff := π.records_iff
  caches_iff := iff_or π.caches_iff hnew

end Pairing

/-! ### Records without numbers -/

namespace ModuleRecord

variable {r r' : ModuleRecord}

/-- The record without the numbers in it. -/
def plain (r : ModuleRecord) : ModuleRecord :=
  { r with cache := 0, claims := r.claims.map fun _ c => { c with ticket := 0 } }

/-- What rules are chosen by is not a number. -/
theorem same_of_plain (h : r.plain = r'.plain) : r.module = r'.module ∧ r.identity = r'.identity ∧
    r.candidates = r'.candidates ∧ r.metadataOpen = r'.metadataOpen := by
  obtain ⟨hmodule, -, hidentity, hcandidates, hopen, -⟩ := ModuleRecord.mk.inj h
  exact ⟨hmodule, hidentity, hcandidates, hopen⟩

theorem contains_of_plain (h : r.plain = r'.plain) (method : Token) :
    r.claims.contains method = r'.claims.contains method := by
  have hclaims := congrArg (fun r => r.claims.contains method) h
  simpa [plain] using hclaims

/-- A record with one more claim, if the method was not claimed. -/
theorem plain_claim (r : ModuleRecord) (method : Token) (c : Claim) :
    { r with claims := r.claims.insertIfNew method c }.plain =
      { r.plain with claims := r.plain.claims.insertIfNew method { c with ticket := 0 } } := by
  unfold plain
  congr 1
  refine Std.ExtHashMap.ext_getElem? fun k => ?_
  simp only [Std.ExtHashMap.getElem?_map, Std.ExtHashMap.getElem?_insertIfNew,
    Std.ExtHashMap.mem_map]
  split <;> rfl

end ModuleRecord

namespace EngineState

/-! ### States that match -/

/-- Two states that are the same as far as a module is concerned, but for the numbers. -/
structure Matches (m : ModuleId) (π : Pairing) (s s' : EngineState) : Prop where
  tornDown : s.tornDown = s'.tornDown
  retryLimit : s.emitter.retryLimit = s'.emitter.retryLimit
  live : Option.Rel π.records s.live[m]? s'.live[m]?
  kept : Option.Rel π.caches s.emitter.live[m]? s'.emitter.live[m]?
  records {i j : RecordId} : π.records i j → ∃ r r', s.record? i = some r ∧ s'.record? j = some r' ∧
    r.module = m ∧ r.plain = r'.plain ∧ π.caches r.cache r'.cache
  caches {c d : CacheId} : π.caches c d → ∃ k, s.emitter.caches[c]? = some k ∧
    s'.emitter.caches[d]? = some k ∧ k.module = m

/-- What was found of a module in two states. -/
structure Recalls (m : ModuleId) (π : Pairing) (x x' : RecordId × ModuleRecord) : Prop where
  records : π.records x.1 x'.1
  module : x.2.module = m
  plain : x.2.plain = x'.2.plain
  caches : π.caches x.2.cache x'.2.cache

theorem Recalls.within {m : ModuleId} {π ρ : Pairing} {x x' : RecordId × ModuleRecord}
    (h : Recalls m π x x') (hρ : π.Within ρ) : Recalls m ρ x x' :=
  ⟨hρ.1 h.records, h.module, h.plain, hρ.2 h.caches⟩

/-- A change that has nothing to do with a module. -/
structure Spares (m : ModuleId) (s t : EngineState) : Prop where
  tornDown : t.tornDown = s.tornDown
  retryLimit : t.emitter.retryLimit = s.emitter.retryLimit
  live : t.live[m]? = s.live[m]?
  kept : t.emitter.live[m]? = s.emitter.live[m]?
  records {i : RecordId} {r : ModuleRecord} : s.record? i = some r → r.module = m →
    t.record? i = some r
  caches {c : CacheId} {k : TokenCache} : s.emitter.caches[c]? = some k → k.module = m →
    t.emitter.caches[c]? = some k

/-- A change that has to do with one module at most. -/
def Changes (m : ModuleId) (s t : EngineState) : Prop := ∀ m', m' ≠ m → Spares m' s t

variable {m : ModuleId} {π : Pairing} {s s' t : EngineState}

theorem Spares.refl (m : ModuleId) (s : EngineState) : Spares m s s :=
  ⟨rfl, rfl, rfl, rfl, fun h _ => h, fun h _ => h⟩

theorem Spares.trans (h : Spares m s s') (h' : Spares m s' t) : Spares m s t where
  tornDown := h'.tornDown.trans h.tornDown
  retryLimit := h'.retryLimit.trans h.retryLimit
  live := h'.live.trans h.live
  kept := h'.kept.trans h.kept
  records hr hm := h'.records (h.records hr hm) hm
  caches hk hm := h'.caches (h.caches hk hm) hm

theorem Changes.refl (m : ModuleId) (s : EngineState) : Changes m s s := fun m' _ => .refl m' s

theorem Changes.trans (h : Changes m s s') (h' : Changes m s' t) : Changes m s t := fun m' hm =>
  (h m' hm).trans (h' m' hm)

/-- Two states that nothing was told to match. -/
theorem matches_fresh (m : ModuleId) (retryLimit : Nat) :
    Matches m .empty (fresh retryLimit) (fresh retryLimit) where
  tornDown := rfl
  retryLimit := rfl
  live := by
    have hnone : (fresh retryLimit).live[m]? = none := Std.ExtTreeMap.getElem?_empty
    rw [hnone]
    exact .none
  kept := by
    have hnone : (fresh retryLimit).emitter.live[m]? = none := Std.ExtTreeMap.getElem?_empty
    rw [hnone]
    exact .none
  records := False.elim
  caches := False.elim

namespace Matches

variable (h : Matches m π s s')
include h

/-- One of the states may change where that has nothing to do with the module. -/
theorem left (hs : Spares m s t) : Matches m π t s' where
  tornDown := hs.tornDown.trans h.tornDown
  retryLimit := hs.retryLimit.trans h.retryLimit
  live := hs.live ▸ h.live
  kept := hs.kept ▸ h.kept
  records hij := by
    obtain ⟨r, r', hr, hr', hm, hlike⟩ := h.records hij
    exact ⟨r, r', hs.records hr hm, hr', hm, hlike⟩
  caches hcd := by
    obtain ⟨k, hk, hk', hm⟩ := h.caches hcd
    exact ⟨k, hs.caches hk hm, hk', hm⟩

theorem right (hs : Spares m s' t) : Matches m π s t where
  tornDown := h.tornDown.trans hs.tornDown.symm
  retryLimit := h.retryLimit.trans hs.retryLimit.symm
  live := hs.live ▸ h.live
  kept := hs.kept ▸ h.kept
  records hij := by
    obtain ⟨r, r', hr, hr', hm, hplain, hcache⟩ := h.records hij
    have hm' : r'.module = m := (ModuleRecord.same_of_plain hplain).1.symm.trans hm
    exact ⟨r, r', hr, hs.records hr' hm', hm, hplain, hcache⟩
  caches hcd := by
    obtain ⟨k, hk, hk', hm⟩ := h.caches hcd
    exact ⟨k, hk, hs.caches hk' hm, hm⟩

/-- The module is found in both states or in neither. -/
theorem find? : Option.Rel (Recalls m π) (s.find? m) (s'.find? m) := by
  unfold EngineState.find?
  have hlive := h.live
  generalize s.live[m]? = i, s'.live[m]? = j at hlive
  cases hlive with
  | none => exact .none
  | some hij =>
    obtain ⟨r, r', hr, hr', hm, hplain, hcache⟩ := h.records hij
    simp only [Option.bind_some, hr, hr', Option.map_some]
    exact .some ⟨hij, hm, hplain, hcache⟩

/-- The module's record, without the numbers. -/
theorem plain_find? : (s.find? m).map (·.2.plain) = (s'.find? m).map (·.2.plain) := by
  have hfind := h.find?
  generalize s.find? m = x, s'.find? m = x' at hfind
  cases hfind with
  | none => rfl
  | some hx => exact congrArg some hx.plain

/-- The module is recorded in the same assembly. -/
theorem recordedIn (a : AssemblyId) : s.RecordedIn m a ↔ s'.RecordedIn m a := by
  have hfind := congrArg (fun x => x.map ModuleRecord.assembly) h.plain_find?
  simp only [Option.map_map] at hfind
  have hiff : ∀ s : EngineState, s.RecordedIn m a ↔
      (s.find? m).map (ModuleRecord.assembly ∘ fun x => x.2.plain) = some a := by
    intro s
    unfold RecordedIn
    rw [Option.map_eq_some_iff]
    exact ⟨fun ⟨id, r, hr, ha⟩ => ⟨(id, r), hr, ha⟩, fun ⟨x, hx, ha⟩ => ⟨x.1, x.2, hx, ha⟩⟩
  rw [hiff, hiff, hfind]

/-- The module's token cache. -/
theorem cache_eq {c d : CacheId} (hcd : π.caches c d) :
    s.emitter.cache c = s'.emitter.cache d := by
  obtain ⟨k, hk, hk', -⟩ := h.caches hcd
  unfold Emitter.cache
  rw [hk, hk']
  rfl

theorem emitter_find? : s.emitter.find? m = s'.emitter.find? m := by
  unfold Emitter.find?
  have hkept := h.kept
  generalize s.emitter.live[m]? = c, s'.emitter.live[m]? = d at hkept
  cases hkept with
  | none => rfl
  | some hcd => exact congrArg some (h.cache_eq hcd)

/-! ### Changes to both -/

/-- Nothing but the counts is changed. -/
theorem counts {events events' : EventCounts} {outcomes outcomes' : OutcomeCounts} {n n' : Nat} :
    Matches m π { s with events := events, outcomes := outcomes, nextTicket := n }
      { s' with events := events', outcomes := outcomes', nextTicket := n' } :=
  ⟨h.tornDown, h.retryLimit, h.live, h.kept, h.records, h.caches⟩

end Matches

theorem spares_counts (m : ModuleId) (s : EngineState) {events : EventCounts}
    {outcomes : OutcomeCounts} {n : Nat} :
    Spares m s { s with events := events, outcomes := outcomes, nextTicket := n } :=
  ⟨rfl, rfl, rfl, rfl, fun h _ => h, fun h _ => h⟩

/-! #### Claims -/

/-- Methods of the module are claimed in both states or in neither. -/
theorem Matches.claim (h : Matches m π s s') {i j : RecordId} (hij : π.records i j) (method : Token)
    (integration : String) :
    (s.claim i method integration).1 = (s'.claim j method integration).1 ∧
      Matches m π (s.claim i method integration).2 (s'.claim j method integration).2 := by
  refine ⟨?_, h.tornDown, h.retryLimit, h.live, h.kept, fun {i' j'} hij' => ?_, h.caches⟩
  · obtain ⟨r, r', hr, hr', -, hplain, -⟩ := h.records hij
    unfold EngineState.claim
    simp only [hr, hr', Option.any_some, ModuleRecord.contains_of_plain hplain]
  · obtain ⟨r, r', hr, hr', hm, hplain, hcache⟩ := h.records hij'
    rw [record?_claim, record?_claim, hr, hr']
    refine ⟨_, _, rfl, rfl, hm, ?_, hcache⟩
    dsimp only
    by_cases hi : i = i'
    · rw [if_pos hi, if_pos ((π.records_iff hij hij').mp hi), ModuleRecord.plain_claim,
        ModuleRecord.plain_claim, hplain]
    · rw [if_neg hi, if_neg (mt (π.records_iff hij hij').mpr hi)]
      exact hplain

theorem changes_claim {i : RecordId} {r : ModuleRecord} (hr : s.record? i = some r) (method : Token)
    (integration : String) : Changes r.module s (s.claim i method integration).2 := by
  intro m' hm
  refine ⟨rfl, rfl, rfl, rfl, fun {i' r'} hr' hm' => ?_, fun hk _ => hk⟩
  have hne : i ≠ i' := by
    rintro rfl
    obtain rfl := Option.some.inj (hr.symm.trans hr')
    exact hm hm'.symm
  rw [record?_claim, hr', Option.map_some, if_neg hne]

/-! #### Rows -/

/-- A row is put in the token caches. -/
theorem Matches.record (h : Matches m π s s') {c d : CacheId} (hcd : π.caches c d)
    (row : Emission) :
    Matches m π { s with emitter := s.emitter.modifyCache c (·.record row) }
      { s' with emitter := s'.emitter.modifyCache d (·.record row) } := by
  refine ⟨h.tornDown, h.retryLimit, h.live, h.kept, h.records, fun {c' d'} hcd' => ?_⟩
  obtain ⟨k, hk, hk', hm⟩ := h.caches hcd'
  show ∃ k, (s.emitter.caches.modify c _)[c']? = some k ∧
    (s'.emitter.caches.modify d _)[d']? = some k ∧ _
  rw [Array.getElem?_modify, Array.getElem?_modify, hk, hk']
  by_cases hc : c = c'
  · rw [if_pos hc, if_pos ((π.caches_iff hcd hcd').mp hc)]
    exact ⟨_, rfl, rfl, hm⟩
  · rw [if_neg hc, if_neg (mt (π.caches_iff hcd hcd').mpr hc)]
    exact ⟨k, rfl, rfl, hm⟩

theorem changes_record {c : CacheId} {k : TokenCache} (hk : s.emitter.caches[c]? = some k)
    (row : Emission) :
    Changes k.module s { s with emitter := s.emitter.modifyCache c (·.record row) } := by
  intro m' hm
  refine ⟨rfl, rfl, rfl, rfl, fun hr _ => hr, fun {c' k'} hk' hm' => ?_⟩
  have hne : c ≠ c' := by
    rintro rfl
    obtain rfl := Option.some.inj (hk.symm.trans hk')
    exact hm hm'.symm
  show (s.emitter.caches.modify c _)[c']? = some k'
  rw [Array.getElem?_modify, if_neg hne, hk']

/-! #### Unloading and stopping -/

/-- What is left when some modules are taken out and then one more. -/
theorem if_mem_cons {α : Type} (m m' : ModuleId) (modules : List ModuleId) (x : Option α) :
    (if m ∈ modules then none else if m' = m then none else x) =
      if m ∈ m' :: modules then none else x := by
  by_cases hm : m ∈ modules
  · rw [if_pos hm, if_pos (List.mem_cons_of_mem m' hm)]
  · rw [if_neg hm]
    by_cases heq : m' = m
    · rw [if_pos heq, if_pos (heq ▸ List.mem_cons_self)]
    · rw [if_neg heq, if_neg fun h => (List.mem_cons.mp h).elim (fun h => heq h.symm) hm]

/-- Modules are unloaded, the module in both states or in neither. -/
theorem foldl_remove (modules : List ModuleId) (s : EngineState) :
    (modules.foldl remove s).live[m]? = (if m ∈ modules then none else s.live[m]?) ∧
      (modules.foldl remove s).emitter.live[m]? =
        (if m ∈ modules then none else s.emitter.live[m]?) ∧
      (modules.foldl remove s).tornDown = s.tornDown ∧
      (modules.foldl remove s).records = s.records ∧
      (modules.foldl remove s).emitter.caches = s.emitter.caches ∧
      (modules.foldl remove s).emitter.retryLimit = s.emitter.retryLimit := by
  induction modules generalizing s with
  | nil => exact ⟨rfl, rfl, rfl, rfl, rfl, rfl⟩
  | cons m' modules ih =>
    obtain ⟨hlive, hkept, hrest⟩ := ih (s.remove m')
    refine ⟨hlive.trans ?_, hkept.trans ?_, hrest⟩
    · rw [live_remove, if_mem_cons]
    · rw [kept_remove, if_mem_cons]

theorem Matches.foldl_remove (h : Matches m π s s') (modules modules' : List ModuleId)
    (hmodules : m ∈ modules ↔ m ∈ modules') :
    Matches m π (modules.foldl remove s) (modules'.foldl remove s') := by
  obtain ⟨hlive, hkept, hdown, hrecords, hcaches, hlimit⟩ :=
    EngineState.foldl_remove (m := m) modules s
  obtain ⟨hlive', hkept', hdown', hrecords', hcaches', hlimit'⟩ :=
    EngineState.foldl_remove (m := m) modules' s'
  refine ⟨?_, ?_, ?_, ?_, fun {i j} hij => ?_, fun {c d} hcd => ?_⟩
  · rw [hdown, hdown', h.tornDown]
  · rw [hlimit, hlimit', h.retryLimit]
  · rw [hlive, hlive']
    simp only [← hmodules]
    split
    · exact .none
    · exact h.live
  · rw [hkept, hkept']
    simp only [← hmodules]
    split
    · exact .none
    · exact h.kept
  · unfold record?
    rw [hrecords, hrecords']
    exact h.records hij
  · rw [hcaches, hcaches']
    exact h.caches hcd

theorem spares_foldl_remove {l : List ModuleId} (hm : m ∉ l) (s : EngineState) :
    Spares m s (l.foldl remove s) := by
  obtain ⟨hlive, hkept, hdown, hrecords, hcaches, hlimit⟩ := foldl_remove (m := m) l s
  refine ⟨hdown, hlimit, ?_, ?_, fun {i r} hr _ => ?_, fun {c k} hk _ => ?_⟩
  · rw [hlive, if_neg hm]
  · rw [hkept, if_neg hm]
  · unfold record?
    rw [hrecords]
    exact hr
  · rw [hcaches]
    exact hk

theorem Matches.remove (h : Matches m π s s') (m' : ModuleId) :
    Matches m π (s.remove m') (s'.remove m') :=
  h.foldl_remove [m'] [m'] .rfl

theorem changes_remove (m : ModuleId) (s : EngineState) : Changes m s (s.remove m) := fun _ hm =>
  spares_foldl_remove (l := [m]) (mt List.mem_singleton.mp hm) s

theorem Matches.removeAssembly (h : Matches m π s s') (hs : s.Filed) (hs' : s'.Filed)
    (a : AssemblyId) : Matches m π (s.removeAssembly a) (s'.removeAssembly a) :=
  h.foldl_remove _ _ (by rw [hs.mem_modulesOf, hs'.mem_modulesOf, h.recordedIn])

theorem spares_removeAssembly (hs : s.Filed) {a : AssemblyId} (hm : ¬ s.RecordedIn m a) :
    Spares m s (s.removeAssembly a) :=
  spares_foldl_remove (mt (hs.mem_modulesOf m a).mp hm) s

theorem Matches.tearDown (h : Matches m π s s') : Matches m π s.tearDown.2 s'.tearDown.2 := by
  have hnone : (∅ : Std.ExtTreeMap ModuleId Nat)[m]? = none := Std.ExtTreeMap.getElem?_empty
  unfold EngineState.tearDown
  rw [← h.tornDown]
  split
  · exact h
  · refine ⟨rfl, h.retryLimit, ?_, ?_, h.records, h.caches⟩
    · dsimp only
      rw [hnone]
      exact .none
    · show Option.Rel π.caches (∅ : Std.ExtTreeMap ModuleId Nat)[m]?
        (∅ : Std.ExtTreeMap ModuleId Nat)[m]?
      rw [hnone]
      exact .none

/-! #### Loading -/

theorem Matches.records_ne_size (h : Matches m π s s') (i j : RecordId) (hij : π.records i j) :
    i ≠ s.records.size ∧ j ≠ s'.records.size := by
  obtain ⟨r, r', hr, hr', -⟩ := h.records hij
  exact ⟨Nat.ne_of_lt (Array.getElem?_eq_some_iff.mp hr).1,
    Nat.ne_of_lt (Array.getElem?_eq_some_iff.mp hr').1⟩

theorem Matches.caches_ne_size (h : Matches m π s s') (c d : CacheId) (hcd : π.caches c d) :
    c ≠ s.emitter.caches.size ∧ d ≠ s'.emitter.caches.size := by
  obtain ⟨k, hk, hk', -⟩ := h.caches hcd
  exact ⟨Nat.ne_of_lt (Array.getElem?_eq_some_iff.mp hk).1,
    Nat.ne_of_lt (Array.getElem?_eq_some_iff.mp hk').1⟩

/-- The module gets a token cache in both states, or in neither because it has one. -/
theorem Matches.cacheOf (h : Matches m π s s') : ∃ ρ, π.Within ρ ∧
    ρ.caches (s.emitter.cacheOf m).1 (s'.emitter.cacheOf m).1 ∧
      Matches m ρ { s with emitter := (s.emitter.cacheOf m).2 }
        { s' with emitter := (s'.emitter.cacheOf m).2 } := by
  have hkept := h.kept
  unfold Emitter.cacheOf
  rcases hc : s.emitter.live[m]? with - | c <;> rcases hd : s'.emitter.live[m]? with - | d <;>
    rw [hc, hd] at hkept <;> cases hkept
  · -- neither has one: both get a new one, and these go together from now on
    refine ⟨π.withCaches _ _ h.caches_ne_size, ⟨id, .inl⟩, .inr ⟨rfl, rfl⟩, h.tornDown,
      h.retryLimit, h.live, ?_, fun {i j} hij => ?_, fun {c d} hcd => ?_⟩
    · show Option.Rel _ (s.emitter.live.insert m _)[m]? (s'.emitter.live.insert m _)[m]?
      rw [Std.ExtTreeMap.getElem?_insert_self, Std.ExtTreeMap.getElem?_insert_self]
      exact .some (.inr ⟨rfl, rfl⟩)
    · obtain ⟨r, r', hr, hr', hm, hplain, hcache⟩ := h.records hij
      exact ⟨r, r', hr, hr', hm, hplain, .inl hcache⟩
    · show ∃ k, (s.emitter.caches.push _)[c]? = some k ∧ (s'.emitter.caches.push _)[d]? = some k ∧ _
      rcases hcd with hcd | ⟨rfl, rfl⟩
      · obtain ⟨k, hk, hk', hm⟩ := h.caches hcd
        exact ⟨k, getElem?_push_of_some hk _, getElem?_push_of_some hk' _, hm⟩
      · rw [Array.getElem?_push_size, Array.getElem?_push_size, h.retryLimit]
        exact ⟨_, rfl, rfl, rfl⟩
  · next hcd =>
    refine ⟨π, .refl π, hcd, h.tornDown, h.retryLimit, h.live, ?_, h.records, h.caches⟩
    rw [hc, hd]
    exact .some hcd

/-- The module is recorded in both states. -/
theorem Matches.enroll (h : Matches m π s s') (info : ModuleInfo) (candidates : List Rule) :
    ∃ ρ, π.Within ρ ∧
      Matches m ρ (Engine.enroll s m info candidates) (Engine.enroll s' m info candidates) := by
  obtain ⟨ρ, hwithin, hcache, h⟩ := h.cacheOf
  have hdown : s.tornDown = s'.tornDown := h.tornDown
  rw [enroll_eq, enroll_eq, ← hdown]
  split
  · refine ⟨ρ, hwithin, rfl, h.retryLimit, h.live, ?_, h.records, h.caches⟩
    show Option.Rel ρ.caches ((s.emitter.cacheOf m).2.live.erase m)[m]?
      ((s'.emitter.cacheOf m).2.live.erase m)[m]?
    rw [Std.ExtTreeMap.getElem?_erase_self, Std.ExtTreeMap.getElem?_erase_self]
    exact .none
  · refine ⟨ρ.withRecords s.records.size s'.records.size h.records_ne_size,
      hwithin.trans ⟨.inl, id⟩, rfl, h.retryLimit, ?_, h.kept, fun {i j} hij => ?_, h.caches⟩
    · show Option.Rel _ (s.live.insert m _)[m]? (s'.live.insert m _)[m]?
      rw [Std.ExtTreeMap.getElem?_insert_self, Std.ExtTreeMap.getElem?_insert_self]
      exact .some (.inr ⟨rfl, rfl⟩)
    · show ∃ r r', (s.records.push _)[i]? = some r ∧ (s'.records.push _)[j]? = some r' ∧ _
      rcases hij with hij | ⟨rfl, rfl⟩
      · obtain ⟨r, r', hr, hr', hlike⟩ := h.records hij
        exact ⟨r, r', getElem?_push_of_some hr _, getElem?_push_of_some hr' _, hlike⟩
      · rw [Array.getElem?_push_size, Array.getElem?_push_size]
        exact ⟨_, _, rfl, rfl, rfl, rfl, hcache⟩

theorem changes_enroll (s : EngineState) (m : ModuleId) (info : ModuleInfo)
    (candidates : List Rule) :
    Changes m s (Engine.enroll s m info candidates) := by
  intro m' hm
  have hcaches : ∀ {c : CacheId} {k}, s.emitter.caches[c]? = some k →
      (s.emitter.cacheOf m).2.caches[c]? = some k := by
    intro c k hk
    unfold Emitter.cacheOf
    split
    · exact hk
    · exact getElem?_push_of_some hk _
  have hlimit : (s.emitter.cacheOf m).2.retryLimit = s.emitter.retryLimit := by
    unfold Emitter.cacheOf
    split <;> rfl
  have hkept : (s.emitter.cacheOf m).2.live[m']? = s.emitter.live[m']? := by
    rw [Emitter.live_cacheOf, if_neg hm.symm]
  rw [enroll_eq]
  split
  · refine ⟨rfl, hlimit, rfl, ?_, fun hr _ => hr, fun hk _ => hcaches hk⟩
    exact (Emitter.live_evict _ m m').trans ((if_neg hm.symm).trans hkept)
  · refine ⟨rfl, hlimit, ?_, hkept, fun {i r} hr _ => ?_, fun hk _ => hcaches hk⟩
    · show (s.live.insert m _)[m']? = _
      simp only [Std.ExtTreeMap.getElem?_insert, Std.compare_eq_iff_eq, if_neg hm.symm]
    · exact getElem?_push_of_some hr _

end EngineState

end CilProbe
