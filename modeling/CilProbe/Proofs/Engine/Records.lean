/-
CilProbe/Proofs/Engine/Records.lean

What is remembered of a module for as long as it is loaded.  In every state the records
and the token caches of the live modules belong together (`Coherent`).  Events that do not
unload a module leave it the token cache that it has, even where it is recorded anew, and
no row in there changes (`Later`); apart from the rows of the module itself, which are put
there when they are asked for, nothing is added to it either (`SameRows`).
-/
import CilProbe.Proofs.Engine.Claims

namespace CilProbe

/-- What an array holds it holds when something was put behind it. -/
theorem getElem?_push_of_some {α : Type} {xs : Array α} {i : Nat} {a : α} (h : xs[i]? = some a)
    (x : α) : (xs.push x)[i]? = some a := by
  obtain ⟨hi, ha⟩ := Array.getElem?_eq_some_iff.mp h
  rw [Array.getElem?_push_lt hi, ha]

/-! ### Token caches -/

namespace Emitter

/-- Only the module whose cache is forgotten is without it. -/
theorem live_evict (e : Emitter) (m m' : ModuleId) :
    (e.evict m).live[m']? = if m = m' then none else e.live[m']? := by
  show (e.live.erase m)[m']? = _
  simp only [Std.ExtTreeMap.getElem?_erase, Std.compare_eq_iff_eq]

theorem cache_modifyCache (e : Emitter) (id : CacheId) (f : TokenCache → TokenCache)
    (c : CacheId) : (e.modifyCache id f).cache c =
      if id = c ∧ c < e.caches.size then f (e.cache c) else e.cache c := by
  unfold cache modifyCache
  dsimp only
  rw [Array.getElem?_modify]
  by_cases hid : id = c
  · rw [if_pos hid]
    by_cases hc : c < e.caches.size
    · rw [if_pos ⟨hid, hc⟩, Array.getElem?_eq_getElem hc]
      rfl
    · rw [if_neg fun h => hc h.2, Array.getElem?_eq_none (Nat.le_of_not_lt hc)]
      rfl
  · rw [if_neg hid, if_neg fun h => hid h.1]

theorem size_modifyCache (e : Emitter) (id : CacheId) (f : TokenCache → TokenCache) :
    (e.modifyCache id f).caches.size = e.caches.size := Array.size_modify

/-- The caches that there are stay when a module gets one. -/
theorem cache_cacheOf (e : Emitter) (m : ModuleId) {c : CacheId} (hc : c < e.caches.size) :
    (e.cacheOf m).2.cache c = e.cache c := by
  unfold cacheOf
  split
  · rfl
  · unfold cache
    dsimp only
    rw [Array.getElem?_push_lt hc, Array.getElem?_eq_getElem hc]

theorem size_cacheOf (e : Emitter) (m : ModuleId) : e.caches.size ≤ (e.cacheOf m).2.caches.size := by
  unfold cacheOf
  split
  · exact Nat.le_refl _
  · show e.caches.size ≤ (e.caches.push _).size
    rw [Array.size_push]
    exact Nat.le_succ _

/-- The module has the cache that it had, or a new one, and the other modules keep theirs. -/
theorem live_cacheOf (e : Emitter) (m m' : ModuleId) :
    (e.cacheOf m).2.live[m']? = if m = m' then some (e.cacheOf m).1 else e.live[m']? := by
  unfold cacheOf
  split
  · next id hid =>
    split
    · next heq =>
      obtain rfl := heq
      exact hid
    · rfl
  · dsimp only
    rw [Std.ExtTreeMap.getElem?_insert]
    simp only [Std.compare_eq_iff_eq]

theorem fst_cacheOf {e : Emitter} {m : ModuleId} {c : CacheId} (hc : e.live[m]? = some c) :
    (e.cacheOf m).1 = c := by
  unfold cacheOf
  rw [hc]

theorem module_cacheOf {e : Emitter} (hcaches : ∀ m c, e.live[m]? = some c →
    c < e.caches.size ∧ (e.cache c).module = m) (m : ModuleId) :
    (e.cacheOf m).1 < (e.cacheOf m).2.caches.size ∧
      ((e.cacheOf m).2.cache (e.cacheOf m).1).module = m := by
  unfold cacheOf
  split
  · next id hid => exact hcaches m id hid
  · refine ⟨?_, ?_⟩
    · show e.caches.size < (e.caches.push _).size
      rw [Array.size_push]
      exact Nat.lt_succ_self _
    · unfold cache
      dsimp only
      rw [Array.getElem?_push_size]
      rfl

end Emitter

/-! ### Modules that come and go -/

namespace EngineState

theorem live_remove (s : EngineState) (m m' : ModuleId) :
    (s.remove m).live[m']? = if m = m' then none else s.live[m']? := by
  show (s.live.erase m)[m']? = _
  simp only [Std.ExtTreeMap.getElem?_erase, Std.compare_eq_iff_eq]

theorem kept_remove (s : EngineState) (m m' : ModuleId) :
    (s.remove m).emitter.live[m']? = if m = m' then none else s.emitter.live[m']? :=
  s.emitter.live_evict m m'

theorem tornDown_tearDown (s : EngineState) : s.tearDown.2.tornDown = true := by
  unfold tearDown
  split
  · next hdown => exact hdown
  · rfl

/-- The token caches stay, though no module has one any more. -/
theorem cache_tearDown (s : EngineState) (c : CacheId) :
    s.tearDown.2.emitter.cache c = s.emitter.cache c := by
  unfold tearDown
  split
  · rfl
  · rfl

theorem size_tearDown (s : EngineState) :
    s.tearDown.2.emitter.caches.size = s.emitter.caches.size := by
  unfold tearDown
  split
  · rfl
  · rfl

/-! ### Records and caches -/

/-- Every live record is one of its module, with the token cache that the module has, and an
engine that was stopped has none. -/
structure Coherent (s : EngineState) : Prop where
  stopped : s.tornDown = true → ∀ m : ModuleId, s.live[m]? = none
  caches : ∀ m c, s.emitter.live[m]? = some c →
    c < s.emitter.caches.size ∧ (s.emitter.cache c).module = m
  records : ∀ m id, s.live[m]? = some id →
    ∃ r, s.record? id = some r ∧ r.module = m ∧ s.emitter.live[m]? = some r.cache

theorem coherent_fresh (retryLimit : Nat) : (fresh retryLimit).Coherent where
  stopped _ _ := Std.ExtTreeMap.getElem?_empty
  caches m c h := by
    have hnone : (fresh retryLimit).emitter.live[m]? = none := Std.ExtTreeMap.getElem?_empty
    rw [hnone] at h
    cases h
  records m id h := by
    have hnone : (fresh retryLimit).live[m]? = none := Std.ExtTreeMap.getElem?_empty
    rw [hnone] at h
    cases h

/-- A claim changes nothing about a record but its claims. -/
theorem record?_claim (s : EngineState) (id : RecordId) (method : Token) (integration : String)
    (id' : RecordId) : (s.claim id method integration).2.record? id' =
      (s.record? id').map fun r => { r with
        claims := if id = id' then r.claims.insertIfNew method ⟨s.nextTicket, integration⟩
          else r.claims } := by
  show (s.records.modify id _)[id']? = s.records[id']?.map _
  rw [Array.getElem?_modify]
  by_cases hid : id = id'
  · simp only [if_pos hid]
  · simp only [if_neg hid]
    exact Option.map_id_fun.symm ▸ rfl

namespace Coherent

variable {s : EngineState} (hs : s.Coherent)
include hs

theorem modifyCache {id : CacheId} {f : TokenCache → TokenCache}
    (hf : ∀ c, (f c).module = c.module) :
    Coherent { s with emitter := s.emitter.modifyCache id f } where
  stopped := hs.stopped
  caches m c h := by
    obtain ⟨hc, hm⟩ := hs.caches m c h
    refine ⟨?_, ?_⟩
    · show c < (s.emitter.modifyCache id f).caches.size
      rw [Emitter.size_modifyCache]
      exact hc
    · show ((s.emitter.modifyCache id f).cache c).module = m
      rw [Emitter.cache_modifyCache]
      split
      · exact (hf _).trans hm
      · exact hm
  records := hs.records

theorem remove (m : ModuleId) : (s.remove m).Coherent where
  stopped hdown m' := by
    rw [live_remove]
    split
    · rfl
    · exact hs.stopped hdown m'
  caches m' c h := by
    rw [kept_remove] at h
    split at h
    · cases h
    · exact hs.caches m' c h
  records m' id h := by
    rw [live_remove] at h
    split at h
    · cases h
    · next hne =>
      obtain ⟨r, hr, hm, hcache⟩ := hs.records m' id h
      exact ⟨r, hr, hm, by rw [kept_remove, if_neg hne, hcache]⟩

theorem tearDown : s.tearDown.2.Coherent := by
  unfold EngineState.tearDown
  split
  · exact hs
  · have hnone : ∀ m : ModuleId, (∅ : Std.ExtTreeMap ModuleId Nat)[m]? = none := fun _ =>
      Std.ExtTreeMap.getElem?_empty
    refine ⟨fun _ => hnone, fun m c h => ?_, fun m id h => ?_⟩
    · exact absurd ((hnone m).symm.trans h) nofun
    · exact absurd ((hnone m).symm.trans h) nofun

theorem claim (id : RecordId) (method : Token) (integration : String) :
    (s.claim id method integration).2.Coherent where
  stopped := hs.stopped
  caches := hs.caches
  records m id' h := by
    obtain ⟨r, hr, hm, hcache⟩ := hs.records m id' h
    rw [record?_claim, hr]
    exact ⟨_, rfl, hm, hcache⟩

end Coherent

/-- What recording a module does. -/
theorem enroll_eq (s : EngineState) (m : ModuleId) (info : ModuleInfo) (candidates : List Rule) :
    Engine.enroll s m info candidates =
      if s.tornDown then { s with emitter := (s.emitter.cacheOf m).2.evict m }
      else { s with
        records := s.records.push (Engine.recordOf m info candidates (s.emitter.cacheOf m).1)
        live := s.live.insert m s.records.size
        emitter := (s.emitter.cacheOf m).2 } := by
  unfold Engine.enroll insert
  show (if s.tornDown = true then _ else _ : Option RecordId × EngineState).2 = _
  split
  · rfl
  · rfl

theorem cache_enroll {s : EngineState} (m : ModuleId) (info : ModuleInfo) (candidates : List Rule)
    {c : CacheId} (hc : c < s.emitter.caches.size) :
    (Engine.enroll s m info candidates).emitter.cache c = s.emitter.cache c := by
  rw [← Emitter.cache_cacheOf s.emitter m hc, enroll_eq]
  split
  · rfl
  · rfl

theorem size_enroll (s : EngineState) (m : ModuleId) (info : ModuleInfo) (candidates : List Rule) :
    s.emitter.caches.size ≤ (Engine.enroll s m info candidates).emitter.caches.size := by
  refine Nat.le_trans (Emitter.size_cacheOf s.emitter m) (Nat.le_of_eq ?_)
  rw [enroll_eq]
  split
  · rfl
  · rfl

/-- The module has a new record, the others keep theirs. -/
theorem live_enroll {s : EngineState} (hup : s.tornDown ≠ true) (m : ModuleId) (info : ModuleInfo)
    (candidates : List Rule) (m' : ModuleId) :
    (Engine.enroll s m info candidates).live[m']? =
      if m = m' then some s.records.size else s.live[m']? := by
  rw [enroll_eq, if_neg hup]
  show (s.live.insert m s.records.size)[m']? = _
  simp only [Std.ExtTreeMap.getElem?_insert, Std.compare_eq_iff_eq]

theorem record?_enroll {s : EngineState} (hup : s.tornDown ≠ true) (m : ModuleId)
    (info : ModuleInfo) (candidates : List Rule) :
    (Engine.enroll s m info candidates).record? s.records.size =
      some (Engine.recordOf m info candidates (s.emitter.cacheOf m).1) := by
  rw [enroll_eq, if_neg hup]
  exact Array.getElem?_push_size

/-- The records that there are stay. -/
theorem record?_enroll_of_some {s : EngineState} (m : ModuleId) (info : ModuleInfo)
    (candidates : List Rule) {id : RecordId} {r : ModuleRecord} (hr : s.record? id = some r) :
    (Engine.enroll s m info candidates).record? id = some r := by
  rw [enroll_eq]
  split
  · exact hr
  · exact getElem?_push_of_some hr _

theorem Coherent.enroll {s : EngineState} (hs : s.Coherent) (m : ModuleId) (info : ModuleInfo)
    (candidates : List Rule) : (Engine.enroll s m info candidates).Coherent := by
  have hold : ∀ m' c, (s.emitter.cacheOf m).2.live[m']? = some c →
      c < (s.emitter.cacheOf m).2.caches.size ∧
        ((s.emitter.cacheOf m).2.cache c).module = m' := by
    intro m' c h
    rw [Emitter.live_cacheOf] at h
    split at h
    · next heq =>
      obtain rfl := heq
      obtain rfl := Option.some.inj h
      exact Emitter.module_cacheOf hs.caches m
    · obtain ⟨hc, hm⟩ := hs.caches m' c h
      refine ⟨Nat.lt_of_lt_of_le hc (Emitter.size_cacheOf _ m), ?_⟩
      rw [Emitter.cache_cacheOf _ m hc]
      exact hm
  by_cases hdown : s.tornDown = true
  · rw [enroll_eq, if_pos hdown]
    refine ⟨fun _ => hs.stopped hdown, fun m' c h => ?_, fun m' id h => ?_⟩
    · have h : ((s.emitter.cacheOf m).2.evict m).live[m']? = some c := h
      rw [Emitter.live_evict] at h
      split at h
      · cases h
      · exact hold m' c h
    · rw [show s.live[m']? = none from hs.stopped hdown m'] at h
      cases h
  · have hkept : (Engine.enroll s m info candidates).emitter = (s.emitter.cacheOf m).2 := by
      rw [enroll_eq, if_neg hdown]
    refine ⟨fun h => ?_, fun m' c h => ?_, fun m' id h => ?_⟩
    · rw [enroll_eq, if_neg hdown] at h
      exact absurd h hdown
    · rw [hkept] at h ⊢
      exact hold m' c h
    · rw [live_enroll hdown] at h
      rw [hkept, Emitter.live_cacheOf]
      split at h
      · next heq =>
        obtain rfl := heq
        obtain rfl := Option.some.inj h
        exact ⟨_, record?_enroll hdown m info candidates, rfl, if_pos rfl⟩
      · next hne =>
        obtain ⟨r, hr, hm, hcache⟩ := hs.records m' id h
        exact ⟨r, record?_enroll_of_some m info candidates hr, hm, (if_neg hne).trans hcache⟩

end EngineState

/-! ### One module -/

/-- What stays the same about a module while it is loaded. -/
structure ModuleFacts where
  /-- The module. -/
  module : ModuleId
  /-- What it is. -/
  info : ModuleInfo
  /-- Its metadata, as far as it can be had. -/
  view : MetadataView

namespace ModuleFacts

/-- Name and version of the module's assembly. -/
def identity (f : ModuleFacts) : AssemblyIdentity :=
  ⟨f.info.assemblyName, f.info.assemblyVersion⟩

/-- The rules that may apply to methods of the module. -/
def candidates (f : ModuleFacts) (e : Engine) : List Rule := e.registry.candidatesFor f.identity

/-- Whether an event leaves the module loaded. -/
def SparedBy (f : ModuleFacts) (event : Event) : Prop :=
  event ≠ .moduleUnloading f.module ∧ event ≠ .assemblyUnloading f.info.assembly

end ModuleFacts

namespace EngineState

variable {e : Engine} {f : ModuleFacts}

/-- The record of the module, if it is recorded, says what there is to say about it. -/
def Tracks (e : Engine) (f : ModuleFacts) (s : EngineState) : Prop :=
  ∀ id r, s.live[f.module]? = some id → s.record? id = some r →
    r.assembly = f.info.assembly ∧ r.identity = f.identity ∧ r.candidates = f.candidates e

/-- What one state has of a module the next one has as well: the token cache, unless the engine
was stopped, and the rows that are there. -/
structure Later (m : ModuleId) (s s' : EngineState) : Prop where
  stopped : s.tornDown = true → s'.tornDown = true
  live : ∀ c, s.emitter.live[m]? = some c → s'.tornDown = true ∨ s'.emitter.live[m]? = some c
  caches : ∀ c < s.emitter.caches.size, c < s'.emitter.caches.size ∧
    (s'.emitter.cache c).module = (s.emitter.cache c).module
  rows : ∀ c < s.emitter.caches.size, (s.emitter.cache c).module = m →
    ∀ row token, (s.emitter.cache c).get? row = some token →
      (s'.emitter.cache c).get? row = some token

/-- No row was added for the module. -/
def SameRows (m : ModuleId) (s s' : EngineState) : Prop :=
  ∀ c < s.emitter.caches.size, (s.emitter.cache c).module = m →
    ∀ row, (s'.emitter.cache c).get? row = (s.emitter.cache c).get? row

namespace Later

variable {m : ModuleId} {s s₁ s' : EngineState}

theorem refl (s : EngineState) : Later m s s :=
  ⟨id, fun _ => .inr, fun _ hc => ⟨hc, rfl⟩, fun _ _ _ _ _ => id⟩

theorem trans (h : Later m s s₁) (h' : Later m s₁ s') : Later m s s' where
  stopped hdown := h'.stopped (h.stopped hdown)
  live c hc := (h.live c hc).elim (fun hdown => .inl (h'.stopped hdown)) (h'.live c)
  caches c hc := by
    obtain ⟨hc₁, hm₁⟩ := h.caches c hc
    obtain ⟨hc', hm'⟩ := h'.caches c hc₁
    exact ⟨hc', hm'.trans hm₁⟩
  rows c hc hm row token hrow := by
    obtain ⟨hc₁, hm₁⟩ := h.caches c hc
    exact h'.rows c hc₁ (hm₁.trans hm) row token (h.rows c hc hm row token hrow)

end Later

namespace SameRows

variable {m : ModuleId} {s s₁ s' : EngineState}

theorem refl (s : EngineState) : SameRows m s s := fun _ _ _ _ => rfl

theorem trans (hlater : Later m s s₁) (h : SameRows m s s₁) (h' : SameRows m s₁ s') :
    SameRows m s s' := by
  intro c hc hm row
  obtain ⟨hc₁, hm₁⟩ := hlater.caches c hc
  rw [h' c hc₁ (hm₁.trans hm) row, h c hc hm row]

end SameRows

/-! ### Steps -/

/-- A step that leaves everything about the module as it was. -/
structure Advances (e : Engine) (f : ModuleFacts) (s s' : EngineState) : Prop where
  coherent : s'.Coherent
  tracks : Tracks e f s'
  later : Later f.module s s'
  rows : SameRows f.module s s'

theorem Later.of_emitter {m : ModuleId} {s s' : EngineState} (hdown : s'.tornDown = s.tornDown)
    (hemitter : s'.emitter = s.emitter) : Later m s s' := by
  refine ⟨fun h => hdown.trans h, fun c hc => .inr ?_, fun c hc => ?_, fun c hc hm row token hrow => ?_⟩
  · rw [hemitter]
    exact hc
  · rw [hemitter]
    exact ⟨hc, rfl⟩
  · rw [hemitter]
    exact hrow

theorem Advances.trans {s s₁ s₂ : EngineState} (h : Advances e f s s₁) (h' : Advances e f s₁ s₂) :
    Advances e f s s₂ :=
  ⟨h'.coherent, h'.tracks, h.later.trans h'.later, h.rows.trans h.later h'.rows⟩

section Steps

variable {s : EngineState} (hs : s.Coherent) (htracks : Tracks e f s)
include hs htracks

/-- Nothing but the counts is changed. -/
theorem advances_of_counts {s' : EngineState} (hdown : s'.tornDown = s.tornDown)
    (hlive : s'.live = s.live) (hrecords : s'.records = s.records)
    (hemitter : s'.emitter = s.emitter) : Advances e f s s' where
  coherent := by
    refine ⟨fun h => ?_, fun m c h => ?_, fun m id h => ?_⟩
    · rw [hlive]
      exact hs.stopped (hdown.symm.trans h)
    · rw [hemitter] at h ⊢
      exact hs.caches m c h
    · unfold record?
      rw [hlive] at h
      rw [hrecords, hemitter]
      exact hs.records m id h
  tracks := by
    intro id r hid hr
    unfold record? at hr
    rw [hlive] at hid
    rw [hrecords] at hr
    exact htracks id r hid hr
  later := .of_emitter hdown hemitter
  rows := fun _ _ _ _ => by rw [hemitter]

theorem advances_claim (id : RecordId) (method : Token) (integration : String) :
    Advances e f s (s.claim id method integration).2 where
  coherent := hs.claim id method integration
  tracks := by
    intro id' r hid hr
    rw [record?_claim] at hr
    obtain ⟨r', hr', rfl⟩ := Option.map_eq_some_iff.mp hr
    exact htracks id' r' hid hr'
  later := .of_emitter rfl rfl
  rows := SameRows.refl s

omit hs htracks in
theorem caches_record (s : EngineState) (id : CacheId) (emission : Emission) :
    ∀ c < s.emitter.caches.size,
      c < (s.emitter.modifyCache id (·.record emission)).caches.size ∧
        ((s.emitter.modifyCache id (·.record emission)).cache c).module =
          (s.emitter.cache c).module := by
  intro c hc
  refine ⟨?_, ?_⟩
  · rw [Emitter.size_modifyCache]
    exact hc
  · rw [Emitter.cache_modifyCache]
    split
    · rfl
    · rfl

/-- A row was put in the token cache of another module. -/
theorem advances_record {id : CacheId} (hid : (s.emitter.cache id).module ≠ f.module)
    (emission : Emission) :
    Advances e f s { s with emitter := s.emitter.modifyCache id (·.record emission) } := by
  have hcache : ∀ c, (s.emitter.cache c).module = f.module →
      (s.emitter.modifyCache id (·.record emission)).cache c = s.emitter.cache c := by
    intro c hm
    rw [Emitter.cache_modifyCache, if_neg]
    rintro ⟨rfl, -⟩
    exact hid hm
  refine ⟨hs.modifyCache fun _ => rfl, htracks, ⟨fun hdown => hdown, fun _ => .inr, ?_, ?_⟩, ?_⟩
  · exact caches_record s id emission
  · intro c _ hm row token hrow
    rw [hcache c hm]
    exact hrow
  · intro c _ hm row
    rw [hcache c hm]

omit hs htracks in
/-- A row that was not there was put in a token cache of the module. -/
theorem later_record {m : ModuleId} {id : CacheId} (emission : Emission)
    (hnew : (s.emitter.cache id).get? emission.row = none) :
    Later m s { s with emitter := s.emitter.modifyCache id (·.record emission) } := by
  refine ⟨fun hdown => hdown, fun _ => .inr, caches_record s id emission, ?_⟩
  intro c _ _ row token hrow
  show ((s.emitter.modifyCache id _).cache c).get? row = some token
  rw [Emitter.cache_modifyCache]
  split
  · next hc =>
    obtain ⟨rfl, -⟩ := hc
    have hne : emission.row ≠ row := by
      rintro rfl
      rw [hnew] at hrow
      cases hrow
    show ((s.emitter.cache id).tokens.insert emission.row emission.token)[row]? = some token
    rw [Std.ExtHashMap.getElem?_insert, if_neg fun h => hne (eq_of_beq h)]
    exact hrow
  · exact hrow

omit hs htracks in
/-- It can be looked up from then on. -/
theorem get?_record {id : CacheId} (hid : id < s.emitter.caches.size) (emission : Emission) :
    ((s.emitter.modifyCache id (·.record emission)).cache id).get? emission.row =
      some emission.token := by
  rw [Emitter.cache_modifyCache, if_pos ⟨rfl, hid⟩]
  show ((s.emitter.cache id).tokens.insert emission.row emission.token)[emission.row]? = _
  rw [Std.ExtHashMap.getElem?_insert, if_pos (beq_self_eq_true _)]

theorem advances_enroll {m : ModuleId} {info : ModuleInfo} {candidates : List Rule}
    (hinfo : m = f.module → info = f.info ∧ candidates = f.candidates e) :
    Advances e f s (Engine.enroll s m info candidates) where
  coherent := hs.enroll m info candidates
  tracks := by
    intro id r hid hr
    by_cases hdown : s.tornDown = true
    · rw [enroll_eq, if_pos hdown] at hid hr
      exact htracks id r hid hr
    · rw [live_enroll hdown] at hid
      split at hid
      · next hm =>
        obtain rfl := Option.some.inj hid
        obtain rfl := Option.some.inj ((record?_enroll hdown m info candidates).symm.trans hr)
        obtain ⟨rfl, rfl⟩ := hinfo hm
        exact ⟨rfl, rfl, rfl⟩
      · obtain ⟨r', hr', -⟩ := hs.records f.module id hid
        obtain rfl := Option.some.inj
          (hr.symm.trans (record?_enroll_of_some m info candidates hr'))
        exact htracks id r hid hr'
  later := by
    refine ⟨fun hdown => ?_, fun c hc => ?_, fun c hc => ?_, fun c hc _ row token hrow => ?_⟩
    · rw [enroll_eq, if_pos hdown]
      exact hdown
    · rw [enroll_eq]
      split
      · next hdown => exact .inl hdown
      · refine .inr ?_
        show (s.emitter.cacheOf m).2.live[f.module]? = some c
        rw [Emitter.live_cacheOf]
        split
        · next hm => rw [Emitter.fst_cacheOf (hm ▸ hc)]
        · exact hc
    · rw [cache_enroll m info candidates hc]
      exact ⟨Nat.lt_of_lt_of_le hc (size_enroll s m info candidates), rfl⟩
    · rw [cache_enroll m info candidates hc]
      exact hrow
  rows := fun c hc _ row => by rw [cache_enroll m info candidates hc]

theorem advances_remove {m : ModuleId} (hm : m ≠ f.module) : Advances e f s (s.remove m) where
  coherent := hs.remove m
  tracks := by
    intro id r hid hr
    rw [live_remove, if_neg hm] at hid
    exact htracks id r hid hr
  later := by
    refine ⟨fun hdown => hdown, fun c hc => .inr ?_, fun c hc => ⟨hc, rfl⟩, fun _ _ _ _ _ hrow => hrow⟩
    rw [kept_remove, if_neg hm, hc]
  rows := SameRows.refl s

omit htracks in
theorem advances_tearDown : Advances e f s s.tearDown.2 where
  coherent := hs.tearDown
  tracks id _ hid _ := by
    rw [hs.tearDown.stopped (tornDown_tearDown s)] at hid
    cases hid
  later := by
    refine ⟨fun _ => tornDown_tearDown s, fun _ _ => .inl (tornDown_tearDown s), fun c hc => ?_,
      fun c _ _ row token hrow => ?_⟩
    · rw [size_tearDown, cache_tearDown]
      exact ⟨hc, rfl⟩
    · rw [cache_tearDown]
      exact hrow
  rows c _ _ row := by rw [cache_tearDown]

/-- Unloading another assembly unloads other modules. -/
theorem advances_removeAssembly {a : AssemblyId} (ha : a ≠ f.info.assembly) :
    Advances e f s (s.removeAssembly a) := by
  have hothers : ∀ m ∈ s.modulesOf a, m ≠ f.module := by
    rintro m hm rfl
    obtain ⟨r, hr, hmodule⟩ := List.mem_map.mp hm
    obtain ⟨hlive, hassembly⟩ := List.mem_filter.mp hr
    obtain ⟨⟨m, id⟩, hid, hrecord⟩ := List.mem_filterMap.mp hlive
    have hid := Std.ExtTreeMap.mem_toList_iff_getElem?_eq_some.mp hid
    obtain ⟨r', hr', hm', -⟩ := hs.records m id hid
    obtain rfl := Option.some.inj (hr'.symm.trans hrecord)
    obtain rfl : m = f.module := hm'.symm.trans hmodule
    exact ha ((eq_of_beq hassembly).symm.trans (htracks id r' hid hr').1)
  exact List.foldlRecOn (motive := Advances e f s) (s.modulesOf a) remove
    ⟨hs, htracks, .refl s, .refl s⟩
    fun s' h m hm => h.trans (advances_remove h.coherent h.tracks (hothers m hm))

end Steps

end EngineState

/-! ### A module with one rule -/

/-- A rule about one method. -/
def constantRule : Rule where
  integration := "Sample"
  assembly := "Sample"
  versions := .any
  typePattern := ⟨"Sample.Numbers"⟩
  methodPattern := ⟨"Zero"⟩
  returnType := .any
  parameters := none
  typeToken := none
  methodToken := none
  helper := { assembly := "Helpers", typeName := "Helpers.Probe" }
  policy := .full

/-- An engine with that rule alone. -/
def constantEngine : Engine := ⟨Registry.empty.add constantRule, 32, .structural⟩

/-- The module that the method is in. -/
def constantFacts : ModuleFacts where
  module := 1
  info := ⟨7, "Sample", default⟩
  view :=
    { typeName := fun _ => .ok "Sample.Numbers"
      methodProps := fun method => .ok ⟨method, ⟨0x02000002⟩, "Zero", [0x00, 0x00, 0x08]⟩
      memberSignature := fun _ => .error .outOfBounds
      standAloneSignature := fun _ => .error .outOfBounds
      coreLibrary := .ok ⟨0x23000001⟩
      hierarchy := none }

end CilProbe
