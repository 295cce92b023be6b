/-
CilProbe/Proofs/Engine/Claims.lean

Records and claims.  Records are only ever added, and a claim is never taken back, so
`hasClaim` can only come to hold, and it comes to hold by `claim` alone (`hasClaim_claim`,
`SameBooks`).  At any moment the number of claims in the statistics is the length of a
list, without repetitions, of the methods claimed in the live records (`claimed_stats`).
-/
import CilProbe.Engine.Dispatch
import CilProbe.Proofs.Engine.Compiling

namespace CilProbe

namespace EngineState

/-! ### Claims -/

/-- Whether a method is claimed in a record. -/
def hasClaim (s : EngineState) (id : RecordId) (method : Token) : Bool :=
  (s.record? id).any fun r => r.claims.contains method

/-- A claim succeeds exactly if the method is not claimed yet. -/
theorem claim_fst (s : EngineState) (id : RecordId) (method : Token) (integration : String) :
    (s.claim id method integration).1 = !s.hasClaim id method := rfl

/-- Behind it the method is claimed, and besides only what was claimed before. -/
theorem hasClaim_claim {s : EngineState} {id : RecordId} {method : Token} {integration : String}
    (hid : id < s.records.size) (id' : RecordId) (method' : Token) :
    (s.claim id method integration).2.hasClaim id' method' =
      (s.hasClaim id' method' || (id' == id && method' == method)) := by
  unfold hasClaim record? claim
  dsimp only
  rw [Array.getElem?_modify]
  by_cases heq : id = id'
  · obtain rfl := heq
    rw [if_pos rfl, Array.getElem?_eq_getElem hid, beq_self_eq_true, Bool.true_and]
    simp only [Option.map_some, Option.any_some, Std.ExtHashMap.contains_insertIfNew]
    rw [Bool.or_comm, Bool.beq_comm]
  · rw [if_neg heq, beq_false_of_ne (Ne.symm heq), Bool.false_and, Bool.or_false]

/-- What a claim does to the books: nothing is counted, and the methods in `made` are claimed,
which were not claimed before. -/
structure Claims (made : RecordId → Token → Bool) (s s' : EngineState) : Prop where
  events : s'.events = s.events
  outcomes : s'.outcomes = s.outcomes
  records : s'.records.size = s.records.size
  claims : ∀ id method,
    (s'.hasClaim id method).toNat = (s.hasClaim id method).toNat + (made id method).toNat

theorem Claims.nothing (s : EngineState) : Claims (fun _ _ => false) s s :=
  ⟨rfl, rfl, rfl, fun _ _ => rfl⟩

theorem Claims.of_claim {s s' : EngineState} {id : RecordId} {method : Token} {integration : String}
    {succeeded : Bool} (h : s.claim id method integration = (succeeded, s'))
    (hid : id < s.records.size) :
    Claims (fun id' method' => succeeded && (id' == id && method' == method)) s s' := by
  obtain rfl : (s.claim id method integration).2 = s' := congrArg Prod.snd h
  have hsucceeded : succeeded = !s.hasClaim id method := by
    rw [← claim_fst s id method integration, h]
  refine ⟨rfl, rfl, Array.size_modify, fun id' method' => ?_⟩
  rw [hsucceeded, hasClaim_claim hid]
  by_cases hsame : id' = id ∧ method' = method
  · obtain ⟨rfl, rfl⟩ := hsame
    cases s.hasClaim id' method' <;> simp
  · have hother : (id' == id && method' == method) = false := by
      rw [Bool.and_eq_false_iff, beq_eq_false_iff_ne, beq_eq_false_iff_ne]
      exact Decidable.not_and_iff_or_not.mp hsame
    rw [hother, Bool.or_false, Bool.and_false]
    rfl

/-! ### Steps that claim nothing -/

/-- The counts and the claims are the same, and records may have been added. -/
structure SameBooks (s s' : EngineState) : Prop where
  events : s'.events = s.events
  outcomes : s'.outcomes = s.outcomes
  records : s.records.size ≤ s'.records.size
  claims : ∀ id method, s'.hasClaim id method = s.hasClaim id method

namespace SameBooks

theorem refl (s : EngineState) : SameBooks s s := ⟨rfl, rfl, Nat.le_refl _, fun _ _ => rfl⟩

theorem trans {s s₁ s' : EngineState} (h : SameBooks s s₁) (h' : SameBooks s₁ s') :
    SameBooks s s' :=
  ⟨h'.events.trans h.events, h'.outcomes.trans h.outcomes, Nat.le_trans h.records h'.records,
    fun id method => (h'.claims id method).trans (h.claims id method)⟩

theorem of_records {s s' : EngineState} (h : Records s s') : SameBooks s s' := by
  obtain ⟨id, e, rfl⟩ := h
  exact ⟨rfl, rfl, Nat.le_refl _, fun _ _ => rfl⟩

/-- A module is recorded without any claims. -/
theorem of_enrolls {s s' : EngineState} (h : Enrolls s s') : SameBooks s s' := by
  obtain ⟨m, info, candidates, rfl⟩ := h
  unfold Engine.enroll insert
  dsimp only
  split
  · exact ⟨rfl, rfl, Nat.le_refl _, fun _ _ => rfl⟩
  · refine ⟨rfl, rfl, ?_, ?_⟩
    · show s.records.size ≤ (s.records.push _).size
      rw [Array.size_push]
      exact Nat.le_succ _
    · intro id method
      show (s.records.push _)[id]?.any _ = s.records[id]?.any _
      rw [Array.getElem?_push]
      split
      · next hid =>
        rw [hid, Array.getElem?_eq_none (Nat.le_refl _)]
        exact Std.ExtHashMap.contains_empty
      · rfl

theorem remove (s : EngineState) (m : ModuleId) : SameBooks s (s.remove m) :=
  ⟨rfl, rfl, Nat.le_refl _, fun _ _ => rfl⟩

theorem removeAssembly (s : EngineState) (a : AssemblyId) : SameBooks s (s.removeAssembly a) :=
  List.foldlRecOn (motive := SameBooks s) (s.modulesOf a) EngineState.remove (refl s)
    fun s' h m _ => h.trans (remove s' m)

theorem tearDown (s : EngineState) : SameBooks s s.tearDown.2 := by
  unfold EngineState.tearDown
  split
  · exact refl s
  · exact ⟨rfl, rfl, Nat.le_refl _, fun _ _ => rfl⟩

end SameBooks

/-! ### Statistics -/

end EngineState

/-- The keys of a map, each of them once. -/
theorem exists_keys {α β : Type} [BEq α] [Hashable α] [LawfulBEq α] [LawfulHashable α]
    (m : Std.ExtHashMap α β) :
    ∃ keys : List α, keys.Nodup ∧ keys.length = m.size ∧ ∀ k, k ∈ keys ↔ m.contains k = true := by
  rcases m with ⟨m⟩
  induction m using Std.ExtDHashMap.inductionOn with
  | _ m =>
    refine ⟨m.keys, ?_, Std.DHashMap.length_keys, fun k => Std.DHashMap.mem_keys⟩
    exact Std.DHashMap.distinct_keys.imp fun h => ne_of_beq_false h

namespace EngineState

/-- The claims in the records that modules have, module by module. -/
theorem exists_claimed (s : EngineState) (modules : List (ModuleId × RecordId))
    (hdistinct : (modules.map Prod.fst).Nodup) :
    ∃ methods : List (ModuleId × Token), methods.Nodup ∧
      (∀ total, (modules.filterMap fun (_, id) => s.record? id).foldl
        (fun total r => total + r.claims.size) total = total + methods.length) ∧
      ∀ m method, (m, method) ∈ methods ↔
        ∃ id r, (m, id) ∈ modules ∧ s.record? id = some r ∧ r.claims.contains method = true := by
  induction modules with
  | nil => exact ⟨[], List.nodup_nil, fun _ => rfl, fun m method => by simp⟩
  | cons entry modules ih =>
    obtain ⟨m, id⟩ := entry
    obtain ⟨hm, hdistinct⟩ := List.nodup_cons.mp hdistinct
    obtain ⟨methods, hnodup, hsum, hmem⟩ := ih hdistinct
    cases hr : s.record? id with
    | none =>
      refine ⟨methods, hnodup, fun total => ?_, fun m' method => ?_⟩
      · simp only [List.filterMap_cons, hr]
        exact hsum total
      · rw [hmem]
        constructor
        · rintro ⟨id', r, hin, hr', hclaims⟩
          exact ⟨id', r, List.mem_cons_of_mem _ hin, hr', hclaims⟩
        · rintro ⟨id', r, hin, hr', hclaims⟩
          rcases List.mem_cons.mp hin with heq | hin
          · obtain ⟨-, rfl⟩ := Prod.mk.inj heq
            rw [hr] at hr'
            cases hr'
          · exact ⟨id', r, hin, hr', hclaims⟩
    | some r =>
      obtain ⟨keys, hkeys, hlength, hkey⟩ := exists_keys r.claims
      refine ⟨keys.map (m, ·) ++ methods, ?_, fun total => ?_, fun m' method => ?_⟩
      · rw [List.nodup_append]
        refine ⟨List.pairwise_map.mpr (hkeys.imp fun hne heq => hne (Prod.mk.inj heq).2), hnodup, ?_⟩
        -- the rest is about other modules
        rintro _ hkey' ⟨m', method⟩ hrest heq
        obtain ⟨method', -, rfl⟩ := List.mem_map.mp hkey'
        obtain ⟨rfl, -⟩ := Prod.mk.inj heq
        obtain ⟨id', -, hin, -⟩ := (hmem m method).mp hrest
        exact hm (List.mem_map.mpr ⟨(m, id'), hin, rfl⟩)
      · simp only [List.filterMap_cons, hr, List.foldl_cons]
        rw [hsum, List.length_append, List.length_map, hlength, Nat.add_assoc]
      · rw [List.mem_append, hmem, List.mem_map]
        constructor
        · rintro (⟨method', hin, heq⟩ | ⟨id', r', hin, hr', hclaims⟩)
          · obtain ⟨rfl, rfl⟩ := Prod.mk.inj heq
            exact ⟨id, r, List.mem_cons_self, hr, (hkey method').mp hin⟩
          · exact ⟨id', r', List.mem_cons_of_mem _ hin, hr', hclaims⟩
        · rintro ⟨id', r', hin, hr', hclaims⟩
          rcases List.mem_cons.mp hin with heq | hin
          · obtain ⟨rfl, rfl⟩ := Prod.mk.inj heq
            obtain rfl := Option.some.inj (hr.symm.trans hr')
            exact .inl ⟨method, (hkey method).mpr hclaims, rfl⟩
          · exact .inr ⟨id', r', hin, hr', hclaims⟩

theorem find?_eq_some {s : EngineState} {m : ModuleId} {id : RecordId} {r : ModuleRecord} :
    s.find? m = some (id, r) ↔ s.live[m]? = some id ∧ s.record? id = some r := by
  unfold find?
  constructor
  · intro h
    obtain ⟨id', hid, h⟩ := Option.bind_eq_some_iff.mp h
    obtain ⟨r', hr, h⟩ := Option.map_eq_some_iff.mp h
    obtain ⟨rfl, rfl⟩ := Prod.mk.inj h
    exact ⟨hid, hr⟩
  · rintro ⟨hid, hr⟩
    rw [hid, Option.bind_some, hr]
    rfl

/-- The statistics count every method that is claimed in a live record, and each of them
once. -/
theorem claimed_stats (s : EngineState) :
    ∃ methods : List (ModuleId × Token), methods.Nodup ∧ methods.length = s.stats.claimed ∧
      ∀ m method, (m, method) ∈ methods ↔
        ∃ id r, s.find? m = some (id, r) ∧ r.claims.contains method = true := by
  have hdistinct : (s.live.toList.map Prod.fst).Nodup := by
    rw [List.nodup_iff_pairwise_ne, List.pairwise_map]
    refine Std.ExtTreeMap.distinct_keys_toList.imp fun h heq => h ?_
    rw [heq]
    exact Std.ReflCmp.compare_self
  obtain ⟨methods, hnodup, hsum, hmem⟩ := s.exists_claimed s.live.toList hdistinct
  refine ⟨methods, hnodup, ?_, fun m method => ?_⟩
  · rw [← Nat.zero_add methods.length]
    exact (hsum 0).symm
  · rw [hmem]
    constructor
    · rintro ⟨id, r, hin, hr, hclaims⟩
      exact ⟨id, r, find?_eq_some.mpr
        ⟨Std.ExtTreeMap.mem_toList_iff_getElem?_eq_some.mp hin, hr⟩, hclaims⟩
    · rintro ⟨id, r, hfind, hclaims⟩
      obtain ⟨hlive, hr⟩ := find?_eq_some.mp hfind
      exact ⟨id, r, Std.ExtTreeMap.mem_toList_iff_getElem?_eq_some.mpr hlive, hr, hclaims⟩

end EngineState

end CilProbe
