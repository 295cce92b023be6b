/-
CilProbe/Metadata/Emitter.lean

The token caches of all modules.  A module's cache is made when it is first
asked for and forgotten when the module is unloaded.  Whoever still holds the
number of a forgotten cache can go on using it; the module gets a new one.
-/
import Std.Data.ExtTreeMap
import CilProbe.Metadata.TokenCache

namespace CilProbe

/-- The number of a token cache; numbers are never used twice. -/
abbrev CacheId := Nat

/-- The token caches of all modules. -/
structure Emitter where
  /-- All caches ever made, by number. -/
  caches : Array TokenCache := #[]
  /-- The caches of the modules that have one. -/
  live : Std.ExtTreeMap ModuleId CacheId := ∅
  /-- How often a conflict is tried again. -/
  retryLimit : Nat

namespace Emitter

/-- No caches at all. -/
def empty (retryLimit : Nat) : Emitter := { retryLimit }

/-! ### Looking up -/

/-- The cache of a number; one that was never made is empty. -/
def cache (e : Emitter) (id : CacheId) : TokenCache :=
  e.caches[id]?.getD { module := 0, retryLimit := e.retryLimit }

/-- The cache that a module has. -/
def find? (e : Emitter) (m : ModuleId) : Option TokenCache := e.live[m]?.map e.cache

/-- How many modules have a cache. -/
def size (e : Emitter) : Nat := e.live.size

/-- The modules that have a cache, in order. -/
def modules (e : Emitter) : List ModuleId := e.live.toList.map Prod.fst

/-! ### Changes -/

/-- The number of a module's cache, which is made if there is none. -/
def cacheOf (e : Emitter) (m : ModuleId) : CacheId × Emitter :=
  match e.live[m]? with
  | some id => (id, e)
  | none =>
    (e.caches.size,
      { e with
        caches := e.caches.push { module := m, retryLimit := e.retryLimit }
        live := e.live.insert m e.caches.size })

/-- Change the cache of a number. -/
def modifyCache (e : Emitter) (id : CacheId) (f : TokenCache → TokenCache) : Emitter :=
  { e with caches := e.caches.modify id f }

/-- Forget the cache of a module. -/
def evict (e : Emitter) (m : ModuleId) : Emitter := { e with live := e.live.erase m }

/-- Forget the caches of all modules. -/
def clear (e : Emitter) : Emitter := { e with live := ∅ }

end Emitter

end CilProbe
