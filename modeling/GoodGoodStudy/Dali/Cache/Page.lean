/-
The decorator `cache` of `dali/cache/__init__.py` over `PageCacheManager`: a page handler whose
answer is stored under a key and replayed until it expires. The responses of all requests and the
clock form the world of the manager; a handler is the list of its calls on its own response, each
at a reading of the clock.

The entry stores the field `body` of the filling response, which only `end` assigns. So a replay
has the bytes of the original exactly if the handler wrote none before `end`.
-/
import GoodGoodStudy.Dali.Cache.Alone
import GoodGoodStudy.Dali.Http.Response
import Mathlib.Order.Lattice

namespace GoodGoodStudy.Dali

open GoodGoodStudy.Lib

/-- The world of the page cache: the clock, and the response of every request. -/
structure PageWorld (τ : Type) where
  now : τ
  responses : Nat → Response

/-- A page handler: its calls on its response. -/
abbrev Handler (τ : Type) := List (τ × Response.Call)

/-- Wrap callbacks: the manager's own, and the closure that `inner` builds for a request. -/
inductive PageWrap (τ : Type) where
  | wrapData
  | inner (target : Handler τ) (request : Nat) (expire : τ)

inductive PageError where
  | typeError
  | unicodeDecodeError

variable {τ : Type}

/-- One call of a handler. -/
def PageWorld.call (request : Nat) (e : PageWorld τ) (c : τ × Response.Call) : PageWorld τ where
  now := c.1
  responses := Function.update e.responses request ((e.responses request).call c.2)

/-- The calls of a handler, an action each, and what follows. -/
def Handler.await (request : Nat) {ρ : Type} : Handler τ → Coro (PageWorld τ) PageError ρ →
    Coro (PageWorld τ) PageError ρ
  | [], k => k
  | c :: cs, k => .act (fun e => e.call request c) fun _ => Handler.await request cs k

section Manager

variable [LinearOrder τ] [Add τ]

/-- `PageCacheManager` with the `wrap_data_callback` of `inner`: run the handler, then store the body
of its response. -/
def pageCacheManager : CacheClass String Bytes τ (PageWorld τ) PageError (PageWrap τ) Unit where
  wrap callback _ := match callback with
    | .wrapData => .ret none
    | .inner target request expire =>
      Handler.await request target (.act id fun e => .ret (some ⟨(e.responses request).body, e.now + expire⟩))
  will _ wrapper _ := .act id fun e => .ret (e.now > wrapper.timestamp)
  wrapData := .wrapData
  willReload := ()

abbrev PageManager (τ : Type) := BaseCacheManager String Bytes τ (PageWrap τ) Unit

/-- The arguments of the decorator. -/
structure CacheOptions (τ : Type) where
  expire : τ
  key : Option String

/-- The key of a request: the given one, or the uri, apart for mobile devices. -/
def CacheOptions.keyOf (options : CacheOptions τ) (req : Request) : Option String × Request :=
  match options.key with
  | none | some "" =>
    let (uri, req) := req.readUri
    (uri.map fun key => if req.isMobile then key ++ ",mobile" else key, req)
  | some key => (some key, req)

/-- What a request leaves behind. -/
structure Served (τ : Type) where
  manager : PageManager τ
  world : PageWorld τ
  request : Request
  result : Except PageError Unit

/-- `inner`, alone. The test for three arguments compares the tuple itself with 3, so a decorated
method raises. -/
def inner (options : CacheOptions τ) (target : Handler τ) (argc : Nat) (m : PageManager τ) (e : PageWorld τ)
    (req : Request) (res : Nat) : Served τ :=
  if argc = 2 then
    let (key, req) := options.keyOf req
    match key with
    | none => ⟨m, e, req, .error .unicodeDecodeError⟩
    | some key =>
      match m.runGetData pageCacheManager key (some (.inner target res options.expire)) none e with
      | (m, .error x, e) => ⟨m, e, req, .error x⟩
      | (m, .ok cacheData, e) =>
        if (e.responses res).bodySent then ⟨m, e, req, .ok ()⟩
        else match cacheData with
          | some data => ⟨m, e.call res (e.now, .end data), req, .ok ()⟩
          -- a closure of `inner` never answers `None`
          | none => ⟨m, e, req, .error .typeError⟩
  else ⟨m, e, req, .error .typeError⟩

end Manager

/-! ## The bytes a client receives -/

namespace Response

def bodyOf : Message → Bytes
  | .start _ _ => []
  | .body data _ => data

/-- The body bytes sent so far. -/
def received (res : Response) : Bytes := res.sent.flatMap bodyOf

theorem received_write (res : Response) (data : Bytes) : (res.call (.write data)).received = res.received ++ data := by
  rw [received, call_sent, received, List.flatMap_append, emitted]
  split <;> simp [bodyOf]

theorem received_end {res : Response} (h : res.bodySent = false) (data : Bytes) :
    (res.call (.end data)).received = res.received ++ data := by
  rw [received, call_sent, received, List.flatMap_append, emitted, if_neg (by simp [h])]
  split <;> simp [bodyOf]

theorem body_end {res : Response} (h : res.bodySent = false) (data : Bytes) :
    (res.call (.end data)).body = data ∧ (res.call (.end data)).bodySent = true := by
  simp [call, «end», h]

theorem write_bodySent (res : Response) (data : Bytes) : (res.call (.write data)).bodySent = res.bodySent := by
  have h := (call_flags res (.write data)).2
  simp only [Call.isEnd, Bool.false_eq_true, or_false] at h
  exact Bool.eq_iff_iff.2 h

theorem received_fresh {res : Response} (h : res.Fresh) : res.received = [] := by simp [received, h.2.2]

end Response

/-- A handler that answers with some `write` calls and one `end`. -/
def answers (writes : List (τ × Bytes)) (last : τ × Bytes) : Handler τ :=
  writes.map (fun w => (w.1, .write w.2)) ++ [(last.1, .end last.2)]

theorem await_exec (request : Nat) {ρ : Type} (target : Handler τ) (k : Coro (PageWorld τ) PageError ρ)
    (e : PageWorld τ) : (Handler.await request target k).exec e = k.exec (target.foldl (PageWorld.call request) e) := by
  induction target generalizing e with
  | nil => rfl
  | cons c cs ih => exact ih (e.call request c)

theorem foldl_writes (request : Nat) (writes : List (τ × Bytes)) (e : PageWorld τ) :
    let e' := (writes.map fun w => (w.1, Response.Call.write w.2)).foldl (PageWorld.call request) e
    (e'.responses request).received = (e.responses request).received ++ (writes.map Prod.snd).flatten ∧
      (e'.responses request).bodySent = (e.responses request).bodySent := by
  induction writes generalizing e with
  | nil => simp
  | cons w ws ih =>
    obtain ⟨hr, hb⟩ := ih (e.call request (w.1, .write w.2))
    simp only [List.map_cons, List.foldl_cons, List.flatten_cons]
    rw [hr, hb]
    simp only [PageWorld.call, Function.update_self, Response.received_write, Response.write_bodySent,
      List.append_assoc, and_self]

/-- What such a handler does to its response, if that was not finished before. -/
theorem foldl_answers (request : Nat) (writes : List (τ × Bytes)) (last : τ × Bytes) {e : PageWorld τ}
    (h : (e.responses request).bodySent = false) :
    let e' := (answers writes last).foldl (PageWorld.call request) e
    (e'.responses request).received =
        (e.responses request).received ++ (writes.map Prod.snd).flatten ++ last.2 ∧
      (e'.responses request).body = last.2 ∧ (e'.responses request).bodySent = true ∧ e'.now = last.1 := by
  obtain ⟨hr, hb⟩ := foldl_writes request writes e
  simp only [answers, List.foldl_append, List.foldl_cons, List.foldl_nil, PageWorld.call, Function.update_self]
  rw [Response.received_end (hb.trans h), hr]
  exact ⟨rfl, (Response.body_end (hb.trans h) _).1, (Response.body_end (hb.trans h) _).2, trivial⟩

/-! ## The original and the replay -/

section Replay

variable [LinearOrder τ] [Add τ] {options : CacheOptions τ} {req req' : Request} {key : String}

/-- The closure of `inner` runs the handler and stores the body of the response. -/
theorem runRetrieve_inner (target : Handler τ) (res : Nat) (expire : τ) (key : String) (m : PageManager τ)
    (hm : m.wrapDataCallback = some (.inner target res expire)) (e : PageWorld τ) :
    let e' := target.foldl (PageWorld.call res) e
    m.runRetrieve pageCacheManager key e = ({ m with
      cacheMap := m.cacheMap.set key ⟨(e'.responses res).body, e'.now + expire⟩ },
      .ok (some (e'.responses res).body), e') := by
  obtain ⟨cacheMap, w, g⟩ := m
  subst hm
  simp [BaseCacheManager.runRetrieve, BaseCacheManager.runWrap, pageCacheManager, await_exec]

/-- A request that finds no entry, or an expired one, runs its handler and stores the body. -/
theorem inner_fills (hkey : options.keyOf req = (some key, req')) (writes : List (τ × Bytes)) (last : τ × Bytes)
    {m : PageManager τ} {e : PageWorld τ} {res : Nat} (hfresh : (e.responses res).Fresh)
    (hmiss : ∀ w, m.cacheMap.get? key = some w → w.timestamp < e.now) :
    let served := inner options (answers writes last) 2 m e req res
    served.manager.cacheMap.get? key = some ⟨last.2, last.1 + options.expire⟩ ∧
      (served.world.responses res).received = (writes.map Prod.snd).flatten ++ last.2 := by
  obtain ⟨hr, hbody, hsent, hnow⟩ := foldl_answers res writes last hfresh.2.1
  have hrun : m.runGetData pageCacheManager key (some (.inner (answers writes last) res options.expire)) none e =
      ({ m with
        wrapDataCallback := some (.inner (answers writes last) res options.expire)
        willReloadCallback := some () : PageManager τ }).runRetrieve pageCacheManager key e := by
    unfold BaseCacheManager.runGetData
    -- without an entry the handler runs at once, with an expired one after `will_reload`
    cases hget : m.cacheMap.get? key with
    | none => simp [pageCacheManager, hget]
    | some w => simp [BaseCacheManager.runReload, pageCacheManager, hget, hmiss w hget]
  rw [runRetrieve_inner _ _ _ _ _ rfl] at hrun
  simp only [inner, hkey, hrun, if_true, hsent, hr, hbody, hnow, Response.received_fresh hfresh, List.nil_append]
  simp

/-- A request that finds an entry before it expires sends the stored body. -/
theorem inner_replays (hkey : options.keyOf req = (some key, req')) {target : Handler τ} {m : PageManager τ}
    {e : PageWorld τ} {res : Nat} (hfresh : (e.responses res).Fresh) {w : CacheDataWrapper Bytes τ}
    (hget : m.cacheMap.get? key = some w) (hbefore : ¬ w.timestamp < e.now) :
    ((inner options target 2 m e req res).world.responses res).received = w.data := by
  have hrun : ∃ m', m.runGetData pageCacheManager key (some (.inner target res options.expire)) none e =
      (m', .ok (some w.data), e) := by
    simp [BaseCacheManager.runGetData, BaseCacheManager.runReload, pageCacheManager, hget, hbefore]
  obtain ⟨m', hrun⟩ := hrun
  simp only [inner, hkey, hrun, hfresh.2.1]
  simp [PageWorld.call, Response.received_end hfresh.2.1, Response.received_fresh hfresh]

/-- The bytes sent from an entry before it expires are those of the response that filled it if and
only if the `write` calls of the handler carried none. -/
theorem replay_faithful_iff (options : CacheOptions τ) (writes : List (τ × Bytes)) (last : τ × Bytes) (key : String)
    (req₁ req₁' req₂ req₂' : Request) (hkey₁ : options.keyOf req₁ = (some key, req₁'))
    (hkey₂ : options.keyOf req₂ = (some key, req₂')) (m₁ m₂ : PageManager τ) (e₁ e₂ : PageWorld τ) (res₁ res₂ : Nat)
    (hfresh₁ : (e₁.responses res₁).Fresh) (hfresh₂ : (e₂.responses res₂).Fresh)
    (hfills : ∀ w, m₁.cacheMap.get? key = some w → w.timestamp < e₁.now)
    (hentry : m₂.cacheMap.get? key =
      (inner options (answers writes last) 2 m₁ e₁ req₁ res₁).manager.cacheMap.get? key)
    (hbefore : ∀ w, m₂.cacheMap.get? key = some w → ¬ w.timestamp < e₂.now) :
    ((inner options (answers writes last) 2 m₂ e₂ req₂ res₂).world.responses res₂).received =
        ((inner options (answers writes last) 2 m₁ e₁ req₁ res₁).world.responses res₁).received ↔
      (writes.map Prod.snd).flatten = [] := by
  -- the replay has the bytes of `end` alone, the original those of the writes in front of them
  obtain ⟨hstored, hreceived⟩ := inner_fills hkey₁ writes last hfresh₁ hfills
  rw [hstored] at hentry
  rw [inner_replays hkey₂ hfresh₂ hentry (hbefore _ hentry), hreceived, List.self_eq_append_left]

end Replay

/-! ## Two clients -/

/-- The decorator `cache(10, 'page')`. -/
def pageOptions : CacheOptions Nat := ⟨10, some "page"⟩

/-- At a reading of the clock, with no response begun. -/
def quiet (now : Nat) : PageWorld Nat := ⟨now, fun _ => Response.blank⟩

/-- The first client fills the entry. -/
def filled (target : Handler Nat) : Served Nat := inner pageOptions target 2 .init (quiet 0) Response.bareRequest 1

/-- The second one comes at time 5. -/
def replayed (target : Handler Nat) : Served Nat :=
  inner pageOptions target 2 (filled target).manager (quiet 5) Response.bareRequest 2

/-- A page sent by one `end`, after an empty chunk, is replayed. -/
theorem replay_faithful_iff_page :
    let target := answers [(1, [])] (2, ascii "page")
    ((replayed target).world.responses 2).received = ((filled target).world.responses 1).received :=
  (replay_faithful_iff pageOptions [(1, [])] (2, ascii "page") "page" Response.bareRequest Response.bareRequest
    Response.bareRequest Response.bareRequest rfl rfl .init (filled _).manager (quiet 0) (quiet 5) 1 2
    ⟨rfl, rfl, rfl⟩ ⟨rfl, rfl, rfl⟩ (fun _ h => by cases h) rfl (fun w h => by cases h; decide)).2 rfl

/-- A page of two chunks is replayed without the first one. -/
theorem replay_faithful_fails :
    let target := answers [(1, ascii "first ")] (2, ascii "last")
    ((replayed target).world.responses 2).received ≠ ((filled target).world.responses 1).received := by decide

end GoodGoodStudy.Dali
