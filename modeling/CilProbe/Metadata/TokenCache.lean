/-
CilProbe/Metadata/TokenCache.lean

The rows that were defined in a module for injected code, and the tokens they
got.  A row is asked for with `ModuleAccess.token`: the first request defines
it, and every later one is answered from the cache, so that a row is defined
at most once.  A conflict with the runtime's own changes is tried again, within
a limit; any other failure leaves the cache as it was.

Whoever defines a row or installs a body holds the module's writer lock.  A
holder that dies breaks the lock, and from then on only cached tokens can be
had.
-/
import Std.Data.ExtHashMap
import CilProbe.Error
import CilProbe.Metadata.Row
import CilProbe.Host.Id

namespace CilProbe

/-! ### Caches -/

/-- A row that was defined. -/
structure Emission where
  /-- The row. -/
  row : MetadataRow
  /-- The token it got. -/
  token : Token
  /-- How often it was tried. -/
  attempts : Nat
  deriving DecidableEq, Repr

/-- The tokens of the rows defined in one module. -/
structure TokenCache where
  /-- The module. -/
  module : ModuleId
  /-- How often a conflict is tried again. -/
  retryLimit : Nat
  /-- The tokens, by row. -/
  tokens : Std.ExtHashMap MetadataRow Token := ∅
  /-- The rows defined, in order. -/
  log : Array Emission := #[]
  /-- Whether the writer lock is broken. -/
  lockBroken : Bool := false

namespace TokenCache

/-- The token of a row that was defined. -/
def get? (c : TokenCache) (row : MetadataRow) : Option Token := c.tokens[row]?

/-- How many rows were defined. -/
def size (c : TokenCache) : Nat := c.log.size

/-- The cache with one more row. -/
def record (c : TokenCache) (e : Emission) : TokenCache :=
  { c with tokens := c.tokens.insert e.row e.token, log := c.log.push e }

/-- Fail if the writer lock cannot be had. -/
def lock (c : TokenCache) : Except Error Unit := if c.lockBroken then .error .lockBroken else .ok ()

/-- Do something that fails while the writer lock is held. -/
def exclusive {α : Type} (c : TokenCache) (action : Except Error α) : Except Error α := do
  c.lock
  action

/-- Let the holder of the writer lock die; this needs a holder, so a lock that is
broken already has none, and the answer is whether there was one. -/
def breakLock (c : TokenCache) : Bool × TokenCache := (!c.lockBroken, { c with lockBroken := true })

end TokenCache

/-! ### Requests for rows -/

/-- What it takes to get at the tokens of one module: its cache, a way to define
a row, and its reference to the core library. -/
structure ModuleAccess (m : Type → Type) where
  /-- The cache as it is now. -/
  cache : m TokenCache
  /-- Change the cache. -/
  update : (TokenCache → TokenCache) → m Unit
  /-- Define a row. -/
  define : MetadataRow → m (Except Error Token)
  /-- The reference to the core library. -/
  coreLibrary : m (Except Error Token)

namespace ModuleAccess

variable {m : Type → Type} [Monad m]

/-- Define a row after `made` attempts, and try again after a conflict up to
`retries` times; the answer is the token and the number of attempts. -/
def defineWithin (a : ModuleAccess m) (row : MetadataRow) :
    Nat → Nat → m (Except Error (Token × Nat))
  | 0, made => do return (← a.define row).map fun token => (token, made + 1)
  | retries + 1, made => do
    match ← a.define row with
    | .ok token => return .ok (token, made + 1)
    | .error (.emissionConflict _) => a.defineWithin row retries (made + 1)
    | .error e => return .error e

/-- Define a row that is not in the cache, and put it there. -/
def emit (a : ModuleAccess m) (row : MetadataRow) (retryLimit : Nat) : m (Except Error Token) := do
  match ← a.defineWithin row retryLimit 0 with
  | .error e => return .error e
  | .ok (token, attempts) => do
    a.update (·.record ⟨row, token, attempts⟩)
    return .ok token

/-- The token of a row, which is defined on the first request. -/
def token (a : ModuleAccess m) (row : MetadataRow) : ExceptT Error m Token := ExceptT.mk do
  let cache ← a.cache
  match cache.get? row, cache.lock with
  | some token, _ => return .ok token
  | none, .error e => return .error e
  | none, .ok () => a.emit row cache.retryLimit

end ModuleAccess

end CilProbe
