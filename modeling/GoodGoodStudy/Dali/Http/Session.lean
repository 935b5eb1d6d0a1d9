/-
Sessions: `SessionCacheManager` of `dali/cache/session_cache_manager.py` and the four ways a handler
reaches the session of a request, `session_id`, `session_id_str`, `set_session` and `get_session`.

A visit is a request together with the random source and the session store. What an access finds
depends on the request only through its session cookie and its remembered text, and on the store
only through the entry of the id it names.
-/
import GoodGoodStudy.Dali.Cache.Alone
import GoodGoodStudy.Dali.Http.Response
import Mathlib.Data.List.Induction

namespace GoodGoodStudy.Dali

open GoodGoodStudy.Lib

/-- `SessionCacheManager`: new entries are empty and never reloaded; the world is the clock. -/
def sessionCacheManager (ν τ : Type) : CacheClass Bytes (Dict String ν) τ τ Empty Unit Unit where
  wrap _ _ := .act id fun now => .ret (some ⟨.empty, now⟩)
  will _ _ _ := .ret false
  wrapData := ()
  willReload := ()

/-- A session store. -/
abbrev SessionStore (ν τ : Type) := BaseCacheManager Bytes (Dict String ν) τ Unit Unit

/-- A request being handled: the request, the draws made so far, and the store. -/
structure Visit (ν τ : Type) where
  request : Request
  drawn : Nat
  manager : SessionStore ν τ

inductive SessionAccess (ν : Type) where
  | sessionId
  | sessionIdStr
  | setSession (key : String) (value : ν)
  | getSession (key : String)

/-- What an access answers, and which session it went to. -/
inductive SessionOutcome (ν : Type) where
  | sessionId (id : Bytes)
  | sessionIdStr (id : Option String)
  | set (id : Bytes)
  | got (id : Bytes) (value : Option ν)
  | failed

namespace SessionOutcome

variable {ν : Type}

/-- The session an access named. -/
def named : SessionOutcome ν → Option Bytes
  | sessionId id => some id
  | sessionIdStr id => id.map encode
  | set id => some id
  | got id _ => some id
  | failed => none

end SessionOutcome

namespace SessionStore

variable {ν τ : Type}

/-- The dictionary stored under an id, which a handler holds and may assign to. -/
def assign (m : SessionStore ν τ) (sessionId : Bytes) (data : Dict String ν) : SessionStore ν τ :=
  match m.cacheMap.get? sessionId with
  | some wrapper => { m with cacheMap := m.cacheMap.set sessionId { wrapper with data } }
  | none => m

/-- The entries of a session; a session not stored has none. -/
def entries (m : SessionStore ν τ) (sessionId : Bytes) : Dict String ν :=
  ((m.cacheMap.get? sessionId).map CacheDataWrapper.data).getD .empty

end SessionStore

namespace Visit

variable {ν τ : Type} (uuid4 : Nat → String)

/-- The data of the session and the id it was found under, as `session` computes them. -/
def session (s : Visit ν τ) (now : τ) : Bytes × Option (Dict String ν) × Visit ν τ :=
  let (sessionId, request, drawn) := s.request.readSessionId uuid4 s.drawn
  match s.manager.runGetData (sessionCacheManager ν τ) sessionId none none now with
  | (manager, .ok data, _) => (sessionId, data, ⟨request, drawn, manager⟩)

/-- One access, at a reading of the clock. -/
def access (s : Visit ν τ) : τ × SessionAccess ν → Visit ν τ × SessionOutcome ν
  | (_, .sessionId) =>
    let (sessionId, request, drawn) := s.request.readSessionId uuid4 s.drawn
    ({ s with request, drawn }, .sessionId sessionId)
  | (_, .sessionIdStr) =>
    let (sessionIdStr, request, drawn) := s.request.readSessionIdStr uuid4 s.drawn
    ({ s with request, drawn }, .sessionIdStr sessionIdStr)
  | (now, .setSession key value) => match s.session uuid4 now with
    | (sessionId, some data, s) =>
      ({ s with manager := SessionStore.assign s.manager sessionId (data.set key value) }, .set sessionId)
    | (_, none, s) => (s, .failed)
  | (now, .getSession key) => match s.session uuid4 now with
    | (sessionId, some data, s) => (s, .got sessionId (data.get? key))
    | (_, none, s) => (s, .failed)

end Visit

/-! ## The session cookie -/

namespace Request

/-- The value of the session cookie, if it is there and not empty. -/
def sessionCookie (r : Request) : Option Bytes := (r.getCookie (encode sessionIdKey)).1.filter (· ≠ [])

theorem readCookie_again (r : Request) : r.readCookie.2.readCookie = r.readCookie := by
  unfold readCookie
  by_cases h : Falsy r.cookie
  · simp only [h, if_true]
    split <;> rfl
  · simp [h]

theorem readCookie_cookieMap (r : Request) : r.readCookie.2.cookieMap = r.cookieMap := by
  unfold readCookie; split <;> rfl

theorem getCookie_of_filled {r : Request} (h : r.cookieMap.items ≠ []) (key : Bytes) :
    r.getCookie key = (r.cookieMap.get? key, r) := by simp [getCookie, h]

theorem getCookie_of_empty {r : Request} (h : r.cookieMap.items = []) (key : Bytes) :
    r.getCookie key = (r.fillCookieMap.cookieMap.get? key, r.fillCookieMap) := by simp [getCookie, h]

/-- A cookie map that stays empty is no change to the request. -/
theorem fillCookieMap_of_empty {r : Request} (h : r.cookieMap.items = [])
    (h' : r.fillCookieMap.cookieMap.items = []) : r.fillCookieMap = r.readCookie.2 := by
  have hsame : ∀ d : Dict Bytes Bytes, d.items = [] → d = r.readCookie.2.cookieMap := fun d hd => by
    rw [readCookie_cookieMap]; cases d; cases hr : r.cookieMap; simp_all
  unfold fillCookieMap addCookies at h' ⊢
  split at h'
  · rfl
  · rfl
  · simp only at h' ⊢
    rw [hsame _ h']

theorem fillCookieMap_again {r : Request} (h : r.cookieMap.items = [])
    (h' : r.fillCookieMap.cookieMap.items = []) : r.fillCookieMap.fillCookieMap = r.fillCookieMap := by
  rw [fillCookieMap_of_empty h h', fillCookieMap, readCookie_again]
  exact fillCookieMap_of_empty h h'

/-- Reading a cookie twice gives the same value and changes nothing further. -/
theorem getCookie_again (r : Request) (key : Bytes) : (r.getCookie key).2.getCookie key = r.getCookie key := by
  by_cases h : r.cookieMap.items = []
  · rw [getCookie_of_empty h]
    by_cases h' : r.fillCookieMap.cookieMap.items = []
    · rw [getCookie_of_empty h', fillCookieMap_again h h']
    · rw [getCookie_of_filled h']
  · rw [getCookie_of_filled h, getCookie_of_filled h]

@[simp] theorem addCookies_sessionIdStr (r : Request) (cookie : Option Bytes) :
    (r.addCookies cookie).sessionIdStr = r.sessionIdStr := by
  unfold addCookies; split <;> rfl

@[simp] theorem readCookie_sessionIdStr (r : Request) : r.readCookie.2.sessionIdStr = r.sessionIdStr := by
  unfold readCookie; dsimp only; split <;> rfl

@[simp] theorem getCookie_sessionIdStr (r : Request) (key : Bytes) :
    (r.getCookie key).2.sessionIdStr = r.sessionIdStr := by
  unfold getCookie; dsimp only; split <;> simp [fillCookieMap]

/-- The two fields that remember the session id. -/
def remember (r : Request) (sessionIdStr : Option String) (sessionId : Bytes) : Request :=
  { r with sessionIdStr, sessionId }

theorem addCookies_remember (r : Request) (s : Option String) (id : Bytes) (cookie : Option Bytes) :
    (r.remember s id).addCookies cookie = (r.addCookies cookie).remember s id := by
  unfold addCookies; split <;> rfl

theorem readCookie_remember (r : Request) (s : Option String) (id : Bytes) :
    (r.remember s id).readCookie = (r.readCookie.1, r.readCookie.2.remember s id) := by
  unfold readCookie remember getHeader; dsimp only; split <;> rfl

/-- They have no part in finding a cookie. -/
theorem getCookie_remember (r : Request) (s : Option String) (id key : Bytes) :
    (r.remember s id).getCookie key = ((r.getCookie key).1, (r.getCookie key).2.remember s id) := by
  have hfill : (r.remember s id).fillCookieMap = r.fillCookieMap.remember s id := by
    rw [fillCookieMap, readCookie_remember, addCookies_remember, fillCookieMap]
  by_cases h : r.cookieMap.items = []
  · rw [getCookie_of_empty h, getCookie_of_empty (r := r.remember s id) h, hfill]; rfl
  · rw [getCookie_of_filled h, getCookie_of_filled (r := r.remember s id) h]; rfl

@[simp] theorem sessionCookie_remember (r : Request) (s : Option String) (id : Bytes) :
    (r.remember s id).sessionCookie = r.sessionCookie := by
  rw [sessionCookie, getCookie_remember, sessionCookie]

@[simp] theorem sessionCookie_getCookie (r : Request) :
    (r.getCookie (encode sessionIdKey)).2.sessionCookie = r.sessionCookie := by
  rw [sessionCookie, getCookie_again, sessionCookie]

variable (uuid4 : Nat → String)

/-- With a session cookie, reading the id gives the cookie and draws nothing. -/
theorem readSessionId_of_cookie {r : Request} {id : Bytes} (h : r.sessionCookie = some id) (drawn : Nat) :
    ∃ r', r.readSessionId uuid4 drawn = (id, r', drawn) ∧ r'.sessionCookie = some id ∧
      r'.sessionIdStr = r.sessionIdStr := by
  obtain ⟨hget, hne⟩ := Option.filter_eq_some_iff.1 h
  have hne : id ≠ [] := by simpa using hne
  refine ⟨(r.getCookie (encode sessionIdKey)).2.remember r.sessionIdStr id, ?_, by simp [h], rfl⟩
  cases id with
  | nil => exact absurd rfl hne
  | cons b id =>
    simp only [readSessionId, hget]
    simp [remember]

/-- Without one, it draws a new id. -/
theorem readSessionId_of_no_cookie {r : Request} (h : r.sessionCookie = none) (drawn : Nat) :
    ∃ r', r.readSessionId uuid4 drawn = (encode ("daliApi:session:" ++ uuid4 drawn), r', drawn + 1) ∧
      r'.sessionCookie = none ∧ r'.sessionIdStr = some ("daliApi:session:" ++ uuid4 drawn) := by
  -- a cookie that is there but empty counts as none
  refine ⟨(r.getCookie (encode sessionIdKey)).2.remember (some ("daliApi:session:" ++ uuid4 drawn))
    (encode ("daliApi:session:" ++ uuid4 drawn)), ?_, by simp [h], rfl⟩
  have hget : (r.getCookie (encode sessionIdKey)).1 = none ∨ (r.getCookie (encode sessionIdKey)).1 = some [] := by
    rw [sessionCookie, Option.filter_eq_none_iff] at h
    cases hc : (r.getCookie (encode sessionIdKey)).1 with
    | none => exact .inl rfl
    | some id => right; simpa using h id hc
  simp only [readSessionId, remember]
  rcases hget with hget | hget <;> rw [hget]

/-- Building the response fixes the text of the session id: the cookie, or the first draw. -/
theorem init_sessionIdStr {r r' : Request} {drawn drawn' : Nat} {res : Response} (hr : r.sessionIdStr = none)
    (h : Response.init uuid4 r drawn = (some res, r', drawn')) :
    ∃ id, r'.sessionIdStr = some id ∧ Response.blank.setCookie sessionIdKey id = some res ∧
      ((r.sessionCookie = some (encode id) ∧ r'.sessionCookie = some (encode id)) ∨
        r.sessionCookie = none ∧ r'.sessionCookie = none ∧ id = "daliApi:session:" ++ uuid4 drawn ∧
          drawn' = drawn + 1) := by
  simp only [Response.init, readSessionIdStr, hr] at h
  cases hc : r.sessionCookie with
  | none =>
    obtain ⟨r₁, hread, hc₁, hs₁⟩ := readSessionId_of_no_cookie uuid4 hc drawn
    simp only [hread, decode_encode, Option.bind_some, Prod.mk.injEq] at h
    obtain ⟨hres, rfl, rfl⟩ := h
    exact ⟨_, rfl, hres, .inr ⟨rfl, by rw [← hc₁]; exact sessionCookie_remember r₁ _ r₁.sessionId, rfl, rfl⟩⟩
  | some id =>
    obtain ⟨r₁, hread, hc₁, hs₁⟩ := readSessionId_of_cookie uuid4 hc drawn
    simp only [hread] at h
    cases hd : decode id with
    | none => simp [hd] at h
    | some s =>
      simp only [hd, Option.bind_some, Prod.mk.injEq] at h
      obtain ⟨hres, rfl, rfl⟩ := h
      rw [← encode_of_decode hd] at hc₁ ⊢
      exact ⟨s, rfl, hres, .inl ⟨rfl, by rw [← hc₁]; exact sessionCookie_remember r₁ _ r₁.sessionId⟩⟩

end Request

namespace SessionStore

variable {ν τ : Type}

/-- `get_data` finds the entries of a session and leaves them stored under its id. -/
theorem runGetData_entries (m : SessionStore ν τ) (id : Bytes) (now : τ) :
    ∃ m' : SessionStore ν τ, m.runGetData (sessionCacheManager ν τ) id none none now =
        (m', .ok (some (entries m id)), now) ∧ (m'.cacheMap.get? id).isSome ∧ entries m' id = entries m id := by
  cases hget : m.cacheMap.get? id with
  | some w =>
    refine ⟨{ m with wrapDataCallback := some (), willReloadCallback := some () }, ?_, by simp [hget], rfl⟩
    simp [BaseCacheManager.runGetData, BaseCacheManager.runReload, sessionCacheManager, entries, hget]
  | none =>
    refine ⟨{ m with
      wrapDataCallback := some ()
      willReloadCallback := some ()
      cacheMap := m.cacheMap.set id ⟨.empty, now⟩ }, ?_, by simp, by simp [entries, hget]⟩
    simp [BaseCacheManager.runGetData, BaseCacheManager.runRetrieve, BaseCacheManager.runWrap,
      sessionCacheManager, entries, hget]

/-- What is assigned to the entries of a stored session is found there. -/
theorem entries_assign {m : SessionStore ν τ} {id : Bytes} (h : (m.cacheMap.get? id).isSome)
    (data : Dict String ν) : entries (assign m id data) id = data := by
  obtain ⟨w, hw⟩ := Option.isSome_iff_exists.1 h
  simp [assign, entries, hw]

end SessionStore

/-! ## One session -/

namespace Visit

variable {ν τ : Type} (uuid4 : Nat → String)

/-- What an access does to the entries of its session. -/
def effect : SessionAccess ν → Dict String ν → Dict String ν
  | .setSession key value, data => data.set key value
  | _, data => data

/-- The value of the last `set_session` of a key. -/
def latestSet (key : String) (as : List (τ × SessionAccess ν)) : Option ν :=
  as.foldl (fun last a => match a.2 with
    | .setSession key' value => if key = key' then some value else last
    | _ => last) none

/-- All accesses name the session `id`, the response sends it, and a `get_session` answers the value
set last. -/
structure OneSession (res : Response) (s : Visit ν τ) (as : List (τ × SessionAccess ν)) (id : String) : Prop where
  named : ∀ o ∈ outputs (access uuid4) s as, o.named = some (encode id)
  sent : (ascii "set-cookie", .bytes (encode (Response.cookieText sessionIdKey id))) ∈ res.getHeaders
  reads : ∀ pre now key value, pre ++ [(now, .getSession key)] <+: as → latestSet key pre = some value →
    (access uuid4 (final (access uuid4) s pre) (now, .getSession key)).2 = .got (encode id) (some value)

/-- The request has the session cookie `id` and remembers its text. -/
structure InSession (id : String) (s : Visit ν τ) : Prop where
  cookie : s.request.sessionCookie = some (encode id)
  text : s.request.sessionIdStr = some id

variable {uuid4}

variable (uuid4) in
theorem session_inSession {id : String} {s : Visit ν τ} (h : InSession id s) (now : τ) :
    ∃ s', s.session uuid4 now = (encode id, some (SessionStore.entries s.manager (encode id)), s') ∧
      InSession id s' ∧ (s'.manager.cacheMap.get? (encode id)).isSome ∧
      SessionStore.entries s'.manager (encode id) = SessionStore.entries s.manager (encode id) := by
  obtain ⟨r, hread, hcookie, htext⟩ := Request.readSessionId_of_cookie uuid4 h.cookie s.drawn
  obtain ⟨m, hget, hstored, hsame⟩ := SessionStore.runGetData_entries s.manager (encode id) now
  exact ⟨⟨r, s.drawn, m⟩, by simp [session, hread, hget], ⟨hcookie, htext.trans h.text⟩, hstored, hsame⟩

variable (uuid4) in
/-- In a session every access names it, has its effect on the entries, and reads them. -/
theorem access_inSession {id : String} {s : Visit ν τ} (h : InSession id s) (now : τ) (a : SessionAccess ν) :
    InSession id (access uuid4 s (now, a)).1 ∧
      SessionStore.entries (access uuid4 s (now, a)).1.manager (encode id) =
        effect a (SessionStore.entries s.manager (encode id)) ∧
      (access uuid4 s (now, a)).2.named = some (encode id) ∧
      ∀ key, a = .getSession key → (access uuid4 s (now, a)).2 =
        .got (encode id) ((SessionStore.entries s.manager (encode id)).get? key) := by
  cases a with
  | sessionId =>
    obtain ⟨r, hread, hcookie, htext⟩ := Request.readSessionId_of_cookie uuid4 h.cookie s.drawn
    simp only [access, hread]
    exact ⟨⟨hcookie, htext.trans h.text⟩, rfl, rfl, fun _ h => by cases h⟩
  | sessionIdStr =>
    simp only [access, Request.readSessionIdStr, h.text]
    exact ⟨h, rfl, rfl, fun _ h => by cases h⟩
  | setSession key value =>
    obtain ⟨s', hs, hin, hstored, hsame⟩ := session_inSession uuid4 h now
    simp only [access, hs]
    exact ⟨⟨hin.cookie, hin.text⟩, SessionStore.entries_assign hstored _, rfl, fun _ h => by cases h⟩
  | getSession key =>
    obtain ⟨s', hs, hin, hstored, hsame⟩ := session_inSession uuid4 h now
    simp only [access, hs]
    exact ⟨hin, hsame, rfl, fun _ h => by cases h; rfl⟩

variable (uuid4) in
/-- After some accesses in a session the entries hold what was set last. -/
theorem final_inSession {id : String} {s : Visit ν τ} (h : InSession id s) (as : List (τ × SessionAccess ν)) :
    InSession id (final (access uuid4) s as) ∧ ∀ key value, latestSet key as = some value →
      (SessionStore.entries (final (access uuid4) s as).manager (encode id)).get? key = some value := by
  induction as using List.reverseRecOn with
  | nil => exact ⟨h, fun _ _ hv => by cases hv⟩
  | append_singleton as a ih =>
    obtain ⟨hin, hlast⟩ := ih
    obtain ⟨hin', heff, -, -⟩ := access_inSession uuid4 hin a.1 a.2
    rw [final_append]
    refine ⟨hin', ?_⟩
    intro key value hv
    show (SessionStore.entries (access uuid4 _ (a.1, a.2)).1.manager _).get? key = _
    rw [heff]
    obtain ⟨now, a⟩ := a
    cases a with
    | setSession key' value' =>
      simp only [latestSet, List.foldl_append, List.foldl_cons, List.foldl_nil] at hv
      simp only [effect, Dict.get?_set]
      split_ifs at hv ⊢
      · exact hv
      · exact hlast key value hv
    | _ =>
      simp only [latestSet, List.foldl_append, List.foldl_cons, List.foldl_nil] at hv
      exact hlast key value hv

theorem oneSession_of_inSession {id : String} {res : Response} {s : Visit ν τ} (h : InSession id s)
    (hsent : (ascii "set-cookie", .bytes (encode (Response.cookieText sessionIdKey id))) ∈ res.getHeaders)
    (as : List (τ × SessionAccess ν)) : OneSession uuid4 res s as id where
  named := outputs_invariant (I := InSession id) (fun s a h => (access_inSession uuid4 h a.1 a.2).1)
    (fun s a h => (access_inSession uuid4 h a.1 a.2).2.2.1) as h
  sent := hsent
  reads pre now key value _ hv := by
    obtain ⟨hin, hlast⟩ := final_inSession uuid4 h pre
    rw [(access_inSession uuid4 hin now (.getSession key)).2.2.2 key rfl, hlast key value hv]

variable (uuid4) in
/-- Without a session cookie every access but `session_id_str` names a new session. -/
theorem access_named_of_no_cookie {s : Visit ν τ} (h : s.request.sessionCookie = none) (now : τ)
    {a : SessionAccess ν} (ha : a ≠ .sessionIdStr) :
    (access uuid4 s (now, a)).2.named = some (encode ("daliApi:session:" ++ uuid4 s.drawn)) := by
  obtain ⟨r, hread, -, -⟩ := Request.readSessionId_of_no_cookie uuid4 h s.drawn
  cases a with
  | sessionId => simp only [access, hread]; rfl
  | sessionIdStr => exact absurd rfl ha
  | setSession key value =>
    obtain ⟨m, hget, -⟩ :=
      SessionStore.runGetData_entries s.manager (encode ("daliApi:session:" ++ uuid4 s.drawn)) now
    simp only [access, session, hread, hget]; rfl
  | getSession key =>
    obtain ⟨m, hget, -⟩ :=
      SessionStore.runGetData_entries s.manager (encode ("daliApi:session:" ++ uuid4 s.drawn)) now
    simp only [access, session, hread, hget]; rfl

theorem access_sessionIdStr {s : Visit ν τ} {id : String} (h : s.request.sessionIdStr = some id) (now : τ) :
    access uuid4 s (now, .sessionIdStr) = (s, .sessionIdStr (some id)) := by
  simp only [access, Request.readSessionIdStr, h]

/-- Without a session cookie, accesses name one session only if they never leave its text. -/
theorem all_sessionIdStr {s : Visit ν τ} {id : String} (h : s.request.sessionCookie = none)
    (htext : s.request.sessionIdStr = some id) (hfresh : id ≠ "daliApi:session:" ++ uuid4 s.drawn)
    (as : List (τ × SessionAccess ν)) :
    (∀ o ∈ outputs (access uuid4) s as, o.named = some (encode id)) ↔ ∀ a ∈ as, a.2 = .sessionIdStr := by
  induction as with
  | nil => simp [outputs]
  | cons a as ih =>
    obtain ⟨now, a⟩ := a
    by_cases ha : a = .sessionIdStr
    · subst ha
      simp only [outputs, access_sessionIdStr htext, List.forall_mem_cons, ih]
      simp [SessionOutcome.named]
    · have hn := access_named_of_no_cookie uuid4 h now ha
      simp only [outputs, List.forall_mem_cons, ha, hn, Option.some_inj, false_and, iff_false, not_and]
      intro he
      exact absurd (encode_injective he).symm hfresh

end Visit

/-- A new response has one `set-cookie` header, for the session. -/
theorem Response.setCookie_sent {id : String} {res : Response}
    (h : Response.blank.setCookie sessionIdKey id = some res) (b : Bytes) :
    (ascii "set-cookie", .bytes b) ∈ res.getHeaders ↔ b = encode (Response.cookieText sessionIdKey id) := by
  have hres : res.getHeaders = (serverName.toList.map fun c => (ascii "server", .char c)) ++
      [(ascii "set-cookie", .bytes (encode (Response.cookieText sessionIdKey id)))] := by
    cases h; rfl
  simp [hres]

theorem Response.cookieText_injective (name : String) : Function.Injective (Response.cookieText name) := by
  intro s t h
  exact (String.append_right_inj _).1 ((String.append_left_inj _).1 h)

/-- The accesses of a request after its response was built all go to the session that the response
sends, and read what was set last, if and only if the request carries a session cookie or no access
is other than `session_id_str`. -/
theorem one_session_iff {ν τ : Type} (uuid4 : Nat → String) (huuid : Function.Injective uuid4) (scope : Scope)
    (drawn : Nat) (m : SessionStore ν τ) (res : Response) (request : Request) (drawn' : Nat)
    (h : Response.init uuid4 (.init scope) drawn = (some res, request, drawn')) (as : List (τ × SessionAccess ν)) :
    (∃ id, Visit.OneSession uuid4 res ⟨request, drawn', m⟩ as id) ↔
      (Request.init scope).sessionCookie ≠ none ∨ ∀ a ∈ as, a.2 = .sessionIdStr := by
  obtain ⟨id, htext, hset, ⟨hc, hc'⟩ | ⟨hc, hc', rfl, rfl⟩⟩ := Request.init_sessionIdStr uuid4 rfl h
  -- with a cookie all accesses read it; without one the header has the first draw, and they draw again
  · exact iff_of_true ⟨id, Visit.oneSession_of_inSession ⟨hc', htext⟩ ((Response.setCookie_sent hset _).2 rfl) as⟩
      (.inl (by simp [hc]))
  · have hfresh : "daliApi:session:" ++ uuid4 drawn ≠ "daliApi:session:" ++ uuid4 (drawn + 1) := fun he =>
      absurd (huuid ((String.append_right_inj _).1 he)) (by omega)
    have hall := Visit.all_sessionIdStr (s := ⟨request, drawn + 1, m⟩) hc' htext hfresh as
    rw [hc]
    constructor
    · rintro ⟨id, hone⟩
      have hid := Response.cookieText_injective _ (encode_injective ((Response.setCookie_sent hset _).1 hone.sent))
      right
      apply hall.1
      exact hid ▸ hone.named
    · intro hor
      have has : ∀ a ∈ as, a.2 = .sessionIdStr := by simpa using hor
      refine ⟨_, hall.2 has, (Response.setCookie_sent hset _).2 rfl, ?_⟩
      intro pre now key value hp _
      cases has _ (hp.subset (by simp : (now, SessionAccess.getSession key) ∈ _))

/-- A random source for examples: the draw `n` is `n` letters. -/
def letters (n : Nat) : String := String.ofList (List.replicate n 'a')

theorem letters_injective : Function.Injective letters := fun m n h => by
  have hl := congrArg (fun s : String => s.toList.length) h
  simpa [letters] using hl

/-- A request with the session cookie `abc`. -/
def cookieScope : Scope := ⟨"GET", "/", [], some [[ascii "cookie", ascii "a=b; session_id=abc"]]⟩

/-- A request without headers. -/
def bareScope : Scope := ⟨"GET", "/", [], none⟩

/-- With the cookie, a value set is read back and all accesses go to the session of the cookie. -/
theorem one_session_iff_cookie : ∃ res request drawn',
    Response.init letters (.init cookieScope) 0 = (some res, request, drawn') ∧
      ∃ id, Visit.OneSession letters res ⟨request, drawn', (.init : SessionStore Nat Nat)⟩
        [(0, .setSession "k" 7), (1, .sessionIdStr), (2, .getSession "k")] id := by
  obtain ⟨res, hres⟩ : ∃ res, (Response.init letters (.init cookieScope) 0).1 = some res := ⟨_, rfl⟩
  have h : Response.init letters (.init cookieScope) 0 = (some res, _, _) := Prod.ext hres rfl
  refine ⟨res, _, _, h, (one_session_iff letters letters_injective cookieScope 0 .init res _ _ h _).2 (.inl ?_)⟩
  decide

/-- Without a cookie, reading `session_id` after the response was built names another session than
the one in the `set-cookie` header. -/
theorem one_session_fails : ∃ res request drawn',
    Response.init letters (.init bareScope) 0 = (some res, request, drawn') ∧
      ¬ ∃ id, Visit.OneSession letters res ⟨request, drawn', (.init : SessionStore Nat Nat)⟩
        [(0, .sessionId)] id := by
  obtain ⟨res, hres⟩ : ∃ res, (Response.init letters (.init bareScope) 0).1 = some res := ⟨_, rfl⟩
  have h : Response.init letters (.init bareScope) 0 = (some res, _, _) := Prod.ext hres rfl
  refine ⟨res, _, _, h, fun ⟨id, hone⟩ => ?_⟩
  have hid : id = "daliApi:session:" ++ letters 0 := Response.cookieText_injective _
    (encode_injective ((Response.setCookie_sent (hres.symm.trans rfl).symm _).1 hone.sent))
  have hn : some (encode ("daliApi:session:" ++ letters 1)) = some (encode id) :=
    hone.named (.sessionId (encode ("daliApi:session:" ++ letters 1))) (List.mem_singleton.2 rfl)
  rw [hid] at hn
  have h10 := letters_injective ((String.append_right_inj _).1 (encode_injective (Option.some.inj hn)))
  omega

end GoodGoodStudy.Dali
