/-
CilProbe/Proofs/Metadata/Rows.lean

Rows asked for one after the other.  What defines rows may answer as it likes, so it is any
`Registrar` with a state of its own, and a `Desk` keeps the cache of a module together with the
calls that the registrar has had from it.

`served_request` says what one request comes to: a cached token, a failure, or a new row, and
which calls were made for it.  `Kept` is what all requests keep up between the cache, its log
and the calls (`kept_request`, `kept_after`).  From it every row is defined once
(`rows_defined_once`).
-/
import CilProbe.Metadata.TokenCache
import CilProbe.Proofs.Outcome
import Mathlib.Data.List.Induction

namespace CilProbe

variable {τ : Type}

/-! ### Registrars -/

/-- Whatever defines the rows of a module, with a state that any call may change. -/
structure Registrar (τ : Type) where
  /-- Define a row. -/
  define : MetadataRow → τ → Except Error Token × τ
  /-- The reference to the core library. -/
  coreLibrary : τ → Except Error Token × τ

/-- A call to define a row. -/
structure DefineCall where
  /-- The row. -/
  row : MetadataRow
  /-- What came of it. -/
  answer : Except Error Token

/-- The row and its token, if it was defined. -/
def DefineCall.defined : DefineCall → Option (MetadataRow × Token)
  | ⟨row, .ok token⟩ => some (row, token)
  | ⟨_, .error _⟩ => none

theorem DefineCall.defined_eq_some {c : DefineCall} {row : MetadataRow} {token : Token} :
    c.defined = some (row, token) ↔ c = ⟨row, .ok token⟩ := by
  obtain ⟨row', answer⟩ := c
  cases answer <;> simp [DefineCall.defined]

/-- A module with its cache, what defines its rows, and the calls made so far. -/
structure Desk (τ : Type) where
  /-- The cache. -/
  cache : TokenCache
  /-- The state of the registrar. -/
  host : τ
  /-- The calls, in order. -/
  calls : List DefineCall := []

namespace Desk

/-- A module for which nothing was asked yet. -/
def opened (module : ModuleId) (retryLimit : Nat) (host : τ) : Desk τ where
  cache := { module, retryLimit }
  host

/-- The rows that calls have defined, in order. -/
def defined (d : Desk τ) : List (MetadataRow × Token) := d.calls.filterMap DefineCall.defined

theorem mem_defined {d : Desk τ} {row : MetadataRow} {token : Token} :
    (row, token) ∈ d.defined ↔ ⟨row, .ok token⟩ ∈ d.calls := by
  simp only [defined, List.mem_filterMap, DefineCall.defined_eq_some, exists_eq_right]

end Desk

namespace Registrar

variable (r : Registrar τ)

/-- The module of a desk, as requests get at it. -/
def access : ModuleAccess (StateM (Desk τ)) where
  cache := return (← get).cache
  update f := modify fun d => { d with cache := f d.cache }
  define row := modifyGet fun d =>
    let (answer, host) := r.define row d.host
    (answer, { d with host, calls := d.calls ++ [⟨row, answer⟩] })
  coreLibrary := modifyGet fun d =>
    let (answer, host) := r.coreLibrary d.host
    (answer, { d with host })

/-- Ask for a row. -/
def request (row : MetadataRow) (d : Desk τ) : Except Error Token × Desk τ :=
  (r.access.token row).run.run d

/-- Ask for rows, whatever the answers. -/
def after (rows : List MetadataRow) (d : Desk τ) : Desk τ :=
  rows.foldl (fun d row => (r.request row d).2) d

end Registrar

/-! ### One request -/

/-- The calls for one row that ended with an answer: conflicts before it, no more than may be
tried again, and as many as that if it is a conflict too. -/
structure Tried (row : MetadataRow) (retries : Nat) (answer : Except Error Token)
    (calls : List DefineCall) : Prop where
  /-- Only the last call is not a conflict that was tried again. -/
  calls_eq : ∃ whats : List String,
    calls = whats.map (fun what => ⟨row, .error (.emissionConflict what)⟩) ++ [⟨row, answer⟩]
  /-- No more calls than allowed. -/
  length_le : calls.length ≤ retries + 1
  /-- A conflict is given back only when nothing is left to try. -/
  exhausted : ∀ what, answer = .error (.emissionConflict what) → calls.length = retries + 1

namespace Tried

variable {row : MetadataRow} {retries : Nat} {answer : Except Error Token}
  {calls : List DefineCall}

theorem single (h : ∀ what, answer = .error (.emissionConflict what) → retries = 0) :
    Tried row retries answer [⟨row, answer⟩] where
  calls_eq := ⟨[], rfl⟩
  length_le := by simp
  exhausted what heq := by simp [h what heq]

theorem again (what : String) (h : Tried row retries answer calls) :
    Tried row (retries + 1) answer (⟨row, .error (.emissionConflict what)⟩ :: calls) where
  calls_eq := by
    obtain ⟨whats, rfl⟩ := h.calls_eq
    exact ⟨what :: whats, rfl⟩
  length_le := Nat.succ_le_succ h.length_le
  exhausted what' heq := congrArg Nat.succ (h.exhausted what' heq)

/-- Conflicts define nothing, so only the last call can have. -/
theorem defined (h : Tried row retries answer calls) :
    calls.filterMap DefineCall.defined = (DefineCall.defined ⟨row, answer⟩).toList := by
  obtain ⟨whats, rfl⟩ := h.calls_eq
  have hconflicts : (whats.map fun what =>
      (⟨row, .error (.emissionConflict what)⟩ : DefineCall)).filterMap DefineCall.defined = [] := by
    simp [List.filterMap_map, Function.comp_def, DefineCall.defined]
  rw [List.filterMap_append, hconflicts, List.nil_append]
  cases answer <;> rfl

end Tried

/-- What a request for a row comes to. -/
inductive Served (row : MetadataRow) (d : Desk τ) : Except Error Token → Desk τ → Prop
  /-- The row is known: nobody is asked. -/
  | known {token : Token} (hget : d.cache.get? row = some token) : Served row d (.ok token) d
  /-- The row cannot be defined: the cache stays as it is. -/
  | refused {e : Error} {host : τ} {calls : List DefineCall} (hget : d.cache.get? row = none)
      (htried : Tried row d.cache.retryLimit (.error e) calls) :
      Served row d (.error e) { d with host, calls := d.calls ++ calls }
  /-- The row is defined, and recorded with the number of calls that it took. -/
  | recorded {token : Token} {host : τ} {calls : List DefineCall} (hget : d.cache.get? row = none)
      (htried : Tried row d.cache.retryLimit (.ok token) calls) :
      Served row d (.ok token)
        { cache := d.cache.record ⟨row, token, calls.length⟩, host, calls := d.calls ++ calls }

section Requests

variable (r : Registrar τ) (row : MetadataRow)

theorem run_define {d : Desk τ} {answer : Except Error Token} {host : τ}
    (h : r.define row d.host = (answer, host)) :
    (r.access.define row).run d =
      (answer, { d with host, calls := d.calls ++ [⟨row, answer⟩] }) := by
  simp [Registrar.access, modifyGet, MonadStateOf.modifyGet, StateT.modifyGet, StateT.run, h]
  rfl

/-- The calls of `defineWithin`, with their number on top of those `made` before. -/
theorem tried_defineWithin (retries made : Nat) (d : Desk τ) :
    ∃ answer host calls, Tried row retries answer calls ∧
      (r.access.defineWithin row retries made).run d =
        (answer.map fun token => (token, made + calls.length),
          { d with host, calls := d.calls ++ calls }) := by
  induction retries generalizing made d with
  | zero => exact ⟨_, _, _, .single fun _ _ => rfl, rfl⟩
  | succ retries ih =>
    rcases hdefine : r.define row d.host with ⟨answer, host⟩
    rw [ModuleAccess.defineWithin, run_bind_of_run (run_define r row hdefine)]
    split
    next token => exact ⟨.ok token, host, _, .single nofun, rfl⟩
    next what =>
      -- a conflict, and one try less for the rest
      obtain ⟨answer, host', calls, htried, hrun⟩ := ih (made + 1)
        { d with host, calls := d.calls ++ [⟨row, .error (.emissionConflict what)⟩] }
      refine ⟨answer, host', _, htried.again what, hrun.trans ?_⟩
      simp [List.append_assoc, Nat.add_assoc, Nat.add_comm 1]
    next e hconflict =>
      -- any other error is final, whatever is left to try
      refine ⟨.error e, host, _, .single fun what heq => ?_, rfl⟩
      exact absurd (Except.error.inj heq) (hconflict what)

variable {row} {d : Desk τ}

/-- A row in the cache is answered from there. -/
theorem request_of_known {token : Token} (hget : d.cache.get? row = some token) :
    r.request row d = (.ok token, d) := by
  have hcache : r.access.cache.run d = (d.cache, d) := rfl
  rw [Registrar.request, ModuleAccess.token, ExceptT.run_mk, run_bind_of_run hcache, hget]
  rfl

/-- A row that is not is defined, unless somebody has died with the writer lock. -/
theorem request_of_new (hlock : d.cache.lockBroken = false) (hget : d.cache.get? row = none) :
    r.request row d = (r.access.emit row d.cache.retryLimit).run d := by
  have hcache : r.access.cache.run d = (d.cache, d) := rfl
  have hfree : d.cache.lock = .ok () := by simp [TokenCache.lock, hlock]
  rw [Registrar.request, ModuleAccess.token, ExceptT.run_mk, run_bind_of_run hcache, hget, hfree]

variable (row)

/-- A request is served, as long as the writer lock can be had. -/
theorem served_request (hlock : d.cache.lockBroken = false) :
    Served row d (r.request row d).1 (r.request row d).2 := by
  cases hget : d.cache.get? row with
  | some token =>
    rw [request_of_known r hget]
    exact .known hget
  | none =>
    obtain ⟨answer, host, calls, htried, hrun⟩ :=
      tried_defineWithin r row d.cache.retryLimit 0 d
    rw [request_of_new r hlock hget, ModuleAccess.emit, run_bind_of_run hrun, Nat.zero_add]
    cases answer with
    | error e => exact .refused hget htried
    | ok token => exact .recorded hget htried

end Requests

/-! ### Any number of requests -/

theorem TokenCache.get?_record (c : TokenCache) (e : Emission) (row : MetadataRow) :
    (c.record e).get? row = if e.row = row then some e.token else c.get? row := by
  simp only [get?, record, Std.ExtHashMap.getElem?_insert, beq_iff_eq]

theorem TokenCache.log_record (c : TokenCache) (e : Emission) :
    (c.record e).log.toList = c.log.toList ++ [e] := Array.toList_push

namespace Desk

/-- What requests keep up: the log, the cache and the calls tell of the same rows. -/
structure Kept (retryLimit : Nat) (d : Desk τ) : Prop where
  /-- Nobody has died with the writer lock. -/
  lock : d.cache.lockBroken = false
  /-- The limit on conflicts. -/
  limit : d.cache.retryLimit = retryLimit
  /-- No row is logged twice. -/
  nodup : (d.cache.log.toList.map Emission.row).Nodup
  /-- The cache knows what was logged. -/
  get?_iff : ∀ row token, d.cache.get? row = some token ↔
    ∃ e ∈ d.cache.log.toList, e.row = row ∧ e.token = token
  /-- What was logged was defined, in this order, and nothing else was. -/
  defined_eq : d.defined = d.cache.log.toList.map fun e => (e.row, e.token)

theorem kept_opened (module : ModuleId) (retryLimit : Nat) (host : τ) :
    Kept retryLimit (opened module retryLimit host) where
  lock := rfl
  limit := rfl
  nodup := .nil
  get?_iff row token := by simp [opened, TokenCache.get?]
  defined_eq := rfl

variable {retryLimit : Nat} {d d' : Desk τ} {row : MetadataRow} {answer : Except Error Token}

namespace Kept

/-- What the cache knows is what was defined. -/
theorem get?_iff_mem_calls (hd : Kept retryLimit d) {token : Token} :
    d.cache.get? row = some token ↔ ⟨row, .ok token⟩ ∈ d.calls := by
  rw [hd.get?_iff, ← mem_defined, hd.defined_eq]
  simp [Prod.ext_iff]

/-- A row that is not in the cache was not logged. -/
theorem row_ne (hd : Kept retryLimit d) (hget : d.cache.get? row = none) :
    ∀ e ∈ d.cache.log, e.row ≠ row := by
  rintro e he rfl
  cases hget.symm.trans ((hd.get?_iff e.row e.token).mpr ⟨e, he.val, rfl, rfl⟩)

theorem defined_tried (hd : Kept retryLimit d) {retries : Nat} {calls : List DefineCall}
    (h : Tried row retries answer calls) {cache : TokenCache} {host : τ} :
    Desk.defined { cache, host, calls := d.calls ++ calls } =
      (d.cache.log.toList.map fun e => (e.row, e.token)) ++
        (DefineCall.defined ⟨row, answer⟩).toList := by
  rw [← hd.defined_eq, ← h.defined, defined, List.filterMap_append, defined]

theorem served (hd : Kept retryLimit d) (h : Served row d answer d') : Kept retryLimit d' := by
  cases h with
  | known => exact hd
  | refused _ htried => exact { hd with
      defined_eq := (hd.defined_tried htried).trans (List.append_nil _) }
  | @recorded token _ calls hget htried => exact
    { lock := hd.lock
      limit := hd.limit
      nodup := by
        simpa [TokenCache.log_record, List.nodup_append] using ⟨hd.nodup, hd.row_ne hget⟩
      get?_iff := by
        intro row' token'
        simp only [TokenCache.get?_record, TokenCache.log_record, List.mem_append,
          List.mem_singleton, or_and_right, exists_or, exists_eq_left, ← hd.get?_iff]
        -- the row is new, so the cache does not have two tokens for it
        split
        next heq => simp [← heq, hget]
        next hne => simp [hne]
      defined_eq := by
        rw [hd.defined_tried htried]
        simp [TokenCache.log_record, DefineCall.defined] }

end Kept

end Desk

section Requests

variable {r : Registrar τ} {retryLimit : Nat} {d : Desk τ}

/-- One request keeps it up. -/
theorem kept_request (row : MetadataRow) (hd : d.Kept retryLimit) :
    (r.request row d).2.Kept retryLimit :=
  hd.served (served_request r row hd.lock)

/-- Any number of requests do. -/
theorem kept_after (rows : List MetadataRow) (hd : d.Kept retryLimit) :
    (r.after rows d).Kept retryLimit := by
  induction rows generalizing d with
  | nil => exact hd
  | cons row rows ih => exact ih (kept_request row hd)

theorem after_concat (rows : List MetadataRow) (row : MetadataRow) (d : Desk τ) :
    r.after (rows ++ [row]) d = (r.request row (r.after rows d)).2 := by
  simp [Registrar.after]

/-! ### Rows are defined once -/

/-- A record comes from one of the requests, which made as many calls as the record says. -/
def Registrar.Accounts (r : Registrar τ) (retryLimit : Nat) (d : Desk τ) (rows : List MetadataRow)
    (e : Emission) : Prop :=
  ∃ earlier later calls d', rows = earlier ++ e.row :: later ∧
    r.request e.row (r.after earlier d) = (.ok e.token, d') ∧
    d'.calls = (r.after earlier d).calls ++ calls ∧ Tried e.row retryLimit (.ok e.token) calls ∧
    e.attempts = calls.length

/-- It does so when more rows are asked for. -/
theorem Registrar.Accounts.concat {rows : List MetadataRow} {e : Emission}
    (h : r.Accounts retryLimit d rows e) (row : MetadataRow) :
    r.Accounts retryLimit d (rows ++ [row]) e := by
  obtain ⟨earlier, later, calls, d', rfl, h⟩ := h
  exact ⟨earlier, later ++ [row], calls, d', by simp, h⟩

theorem accounts_after (hd : d.Kept retryLimit) (hlog : d.cache.log = #[])
    (rows : List MetadataRow) :
    ∀ e ∈ (r.after rows d).cache.log.toList, r.Accounts retryLimit d rows e := by
  induction rows using List.reverseRecOn with
  | nil =>
    intro e he
    simp [Registrar.after, hlog] at he
  | append_singleton rows row ih =>
    intro e he
    have hkept : (r.after rows d).Kept retryLimit := kept_after rows hd
    have hserved := served_request r row hkept.lock
    rw [after_concat] at he
    rcases hrequest : r.request row (r.after rows d) with ⟨answer, d'⟩
    rw [hrequest] at hserved he
    -- only a row that was defined is new in the log
    cases hserved with
    | known => exact (ih e he).concat row
    | refused => exact (ih e he).concat row
    | @recorded token host calls _ htried =>
      rw [TokenCache.log_record, List.mem_append, List.mem_singleton] at he
      rcases he with he | rfl
      · exact (ih e he).concat row
      · exact ⟨rows, [], calls, _, rfl, hrequest, rfl, hkept.limit ▸ htried, rfl⟩

end Requests

/-- Whatever is asked for in a module, and however its rows are defined, each of them is defined
at most once: no row is logged twice, the cache has the tokens that were logged, and no two calls
for one row succeed.  A row that was defined is answered without a call from then on.

A request that fails leaves the cache and the log as they were.  All its calls but the last one
were conflicts, no more than may be tried again, and it fails as the last one did.  A record in
the log tells how many calls the request took that made it. -/
theorem rows_defined_once (r : Registrar τ) (module : ModuleId) (retryLimit : Nat) (host : τ)
    (rows : List MetadataRow) :
    let opened := Desk.opened module retryLimit host
    let d := r.after rows opened
    (d.cache.log.toList.map Emission.row).Nodup ∧
      (∀ row token, d.cache.get? row = some token ↔
        ∃ e ∈ d.cache.log.toList, e.row = row ∧ e.token = token) ∧
      (d.defined.map Prod.fst).Nodup ∧
      (∀ row token, ⟨row, .ok token⟩ ∈ d.calls → r.request row d = (.ok token, d)) ∧
      (∀ row e d', r.request row d = (.error e, d') → d'.cache = d.cache ∧
        ∃ calls, d'.calls = d.calls ++ calls ∧ Tried row retryLimit (.error e) calls) ∧
      ∀ e ∈ d.cache.log.toList, r.Accounts retryLimit opened rows e := by
  intro opened d
  have hopened := Desk.kept_opened module retryLimit host
  have hd : d.Kept retryLimit := kept_after rows hopened
  refine ⟨hd.nodup, hd.get?_iff, ?_, fun row token hmem => ?_, fun row e d' hrequest => ?_,
    accounts_after hopened rfl rows⟩
  · rw [hd.defined_eq, List.map_map]
    exact hd.nodup
  · exact request_of_known r (hd.get?_iff_mem_calls.mpr hmem)
  · have hserved := served_request r row hd.lock
    rw [hrequest] at hserved
    cases hserved with
    | @refused _ _ calls _ htried => exact ⟨rfl, calls, rfl, hd.limit ▸ htried⟩

/-- A registrar that answers from a list, and refuses when there is nothing left. -/
def scriptedRegistrar : Registrar (List (Except Error Token)) where
  define _ script := (script.headD (.error .lockBroken), script.tail)
  coreLibrary script := (.error .lockBroken, script)

/-- Three requests for two assemblies, where one conflict may be tried again: the first is defined
after a conflict, the other meets two of them, and the first is then known. -/
theorem rows_defined_once_scriptedRegistrar :
    let conflict : Except Error Token := .error (.emissionConflict "assembly")
    let opened := Desk.opened 1 1 [conflict, .ok ⟨0x23000002⟩, conflict, conflict]
    let rows : List MetadataRow := [.assemblyRef "a", .assemblyRef "b", .assemblyRef "a"]
    let d := scriptedRegistrar.after rows opened
    (d.cache.log.toList.map Emission.row).Nodup ∧
      d.calls.map DefineCall.row =
        [.assemblyRef "a", .assemblyRef "a", .assemblyRef "b", .assemblyRef "b"] ∧
      scriptedRegistrar.request (.assemblyRef "a") d = (.ok ⟨0x23000002⟩, d) ∧
      (scriptedRegistrar.request (.assemblyRef "b") d).2.cache = d.cache ∧
      scriptedRegistrar.Accounts 1 opened rows ⟨.assemblyRef "a", ⟨0x23000002⟩, 2⟩ := by
  intro conflict opened rows
  let cache := opened.cache.record ⟨.assemblyRef "a", ⟨0x23000002⟩, 2⟩
  let met : List DefineCall := [⟨.assemblyRef "a", conflict⟩, ⟨.assemblyRef "a", .ok ⟨0x23000002⟩⟩]
  let missed : List DefineCall := [⟨.assemblyRef "b", conflict⟩, ⟨.assemblyRef "b", conflict⟩]
  have hopened (row : MetadataRow) : opened.cache.get? row = none := by
    simp [opened, Desk.opened, TokenCache.get?]
  have hknown : cache.get? (.assemblyRef "a") = some ⟨0x23000002⟩ := by
    rw [TokenCache.get?_record, if_pos rfl]
  have hnew : cache.get? (.assemblyRef "b") = none := by
    rw [TokenCache.get?_record, if_neg (by decide), hopened]
  have hfirst : scriptedRegistrar.request (.assemblyRef "a") opened =
      (.ok ⟨0x23000002⟩, { cache, host := [conflict, conflict], calls := met }) :=
    request_of_new _ rfl (hopened _)
  have hsecond : scriptedRegistrar.request (.assemblyRef "b")
        { cache, host := [conflict, conflict], calls := met } =
      (conflict, { cache, host := [], calls := met ++ missed }) :=
    request_of_new _ rfl hnew
  have hthird : scriptedRegistrar.request (.assemblyRef "a")
        { cache, host := [], calls := met ++ missed } =
      (.ok ⟨0x23000002⟩, { cache, host := [], calls := met ++ missed }) :=
    request_of_known _ hknown
  have hfourth : scriptedRegistrar.request (.assemblyRef "b")
        { cache, host := [], calls := met ++ missed } =
      (.error .lockBroken, { cache, host := [], calls := met ++ missed ++
        [⟨.assemblyRef "b", .error .lockBroken⟩] }) :=
    request_of_new _ rfl hnew
  have hafter : scriptedRegistrar.after rows opened =
      { cache, host := [], calls := met ++ missed } := by
    simp only [Registrar.after, rows, List.foldl_cons, List.foldl_nil, hfirst, hsecond, hthird]
  obtain ⟨hnodup, -, -, hcalls, hfails, haccounts⟩ :=
    rows_defined_once scriptedRegistrar 1 1 [conflict, .ok ⟨0x23000002⟩, conflict, conflict] rows
  have hrows : (scriptedRegistrar.after rows opened).calls = met ++ missed := by rw [hafter]
  refine ⟨hnodup, by rw [hrows]; rfl, hcalls _ _ (by rw [hrows]; simp [met]), ?_, ?_⟩
  · exact (hfails _ .lockBroken _ (by rw [hafter, hfourth])).1
  · exact haccounts _ (by rw [hafter]; simp [cache, TokenCache.log_record])

end CilProbe
