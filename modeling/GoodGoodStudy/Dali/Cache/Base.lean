/-
`BaseCacheManager` of `dali/cache/base_cache_manager.py`: the cache map, the two callback fields,
and `get_data` as the coroutine the event loop interleaves with other calls on the same manager.

The code between two awaits runs atomically. A call is suspended while it awaits its `will_reload`
callback or its wrap callback; both are coroutines of their own. Callbacks are named by tokens
(`β` for the wrap callbacks, `γ` for the reload callbacks) and `CacheClass` says what each of them
does, so that a token stands for the function object stored in a field.
-/
import GoodGoodStudy.Lib.Coro
import GoodGoodStudy.Lib.Dict
import GoodGoodStudy.Lib.Run

namespace GoodGoodStudy.Dali

open GoodGoodStudy.Lib

structure CacheDataWrapper (δ τ : Type) where
  data : δ
  timestamp : τ

/-- The fields of a manager. -/
structure BaseCacheManager (κ δ τ β γ : Type) where
  cacheMap : Dict κ (CacheDataWrapper δ τ)
  wrapDataCallback : Option β
  willReloadCallback : Option γ

/-- A class of managers: the callbacks there are, and its own `wrap_data` and `will_reload`. -/
structure CacheClass (κ δ τ ε χ β γ : Type) where
  wrap : β → κ → Coro ε χ (Option (CacheDataWrapper δ τ))
  will : γ → CacheDataWrapper δ τ → κ → Coro ε χ Bool
  wrapData : β
  willReload : γ

/-- Where a call of `get_data` stands: awaiting the `will_reload` callback with the wrapper it read
from the map, awaiting a wrap callback, or ended. -/
inductive Pc (δ τ ε χ β : Type) where
  | willReload (wrapper : CacheDataWrapper δ τ) (co : Coro ε χ Bool)
  | wrapData (callback : β) (co : Coro ε χ (Option (CacheDataWrapper δ τ)))
  | returned (result : Option δ)
  | raised (x : χ)

namespace BaseCacheManager

variable {κ δ τ ε χ β γ : Type} [DecidableEq κ]

/-- `__init__` -/
def init : BaseCacheManager κ δ τ β γ := ⟨.empty, none, none⟩

/-- `retrieve_cache_data` up to its await. -/
def retrieveCacheData (cls : CacheClass κ δ τ ε χ β γ) (m : BaseCacheManager κ δ τ β γ) (key : κ) :
    BaseCacheManager κ δ τ β γ × Pc δ τ ε χ β :=
  let callback := m.wrapDataCallback.getD cls.wrapData
  ({ m with wrapDataCallback := some callback }, .wrapData callback (cls.wrap callback key))

/-- `retrieve_cache_data` after its await. -/
def storeWrapper (m : BaseCacheManager κ δ τ β γ) (key : κ) :
    Option (CacheDataWrapper δ τ) → BaseCacheManager κ δ τ β γ × Pc δ τ ε χ β
  | some wrapper => ({ m with cacheMap := m.cacheMap.set key wrapper }, .returned (some wrapper.data))
  | none => (m, .returned none)

/-- `get_data` up to its first await. -/
def getData (cls : CacheClass κ δ τ ε χ β γ) (m : BaseCacheManager κ δ τ β γ) (key : κ)
    (wrapDataCallback : Option β) (willReloadCallback : Option γ) :
    BaseCacheManager κ δ τ β γ × Pc δ τ ε χ β :=
  let willReload := willReloadCallback.getD cls.willReload
  let m := { m with
    wrapDataCallback := some (wrapDataCallback.getD cls.wrapData)
    willReloadCallback := some willReload }
  match m.cacheMap.get? key with
  | some wrapper => (m, .willReload wrapper (cls.will willReload wrapper key))
  | none => m.retrieveCacheData cls key

/-- `get_data` after the `will_reload` await. -/
def reloadIf (cls : CacheClass κ δ τ ε χ β γ) (m : BaseCacheManager κ δ τ β γ) (key : κ)
    (wrapper : CacheDataWrapper δ τ) (reload : Bool) : BaseCacheManager κ δ τ β γ × Pc δ τ ε χ β :=
  if reload then m.retrieveCacheData cls key else (m, .returned (some wrapper.data))

/-- Resume a call: an unfinished callback performs its next action, a finished one lets the call
go on to its next await or to its end. -/
def resume (cls : CacheClass κ δ τ ε χ β γ) (m : BaseCacheManager κ δ τ β γ) (key : κ) (e : ε) :
    Pc δ τ ε χ β → Option (BaseCacheManager κ δ τ β γ × Pc δ τ ε χ β × ε)
  | .willReload wrapper (.act upd k) => some (m, .willReload wrapper (k e), upd e)
  | .willReload wrapper (.ret reload) =>
    let (m, pc) := m.reloadIf cls key wrapper reload
    some (m, pc, e)
  | .willReload _ (.raise x) => some (m, .raised x, e)
  | .wrapData callback (.act upd k) => some (m, .wrapData callback (k e), upd e)
  | .wrapData _ (.ret wrapper) =>
    let (m, pc) := m.storeWrapper key wrapper
    some (m, pc, e)
  | .wrapData _ (.raise x) => some (m, .raised x, e)
  | .returned _ => none
  | .raised _ => none

end BaseCacheManager

end GoodGoodStudy.Dali
