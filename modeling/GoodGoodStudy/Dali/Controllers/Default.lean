/-
`counter` of `app/controllers/default.py` over whole runs of requests of any clients. A session begins with the second
request of a client: a request without a cookie reads one new id for the header of its response, a second one for the
entry that it reads and a third one for the entry that it writes. From then on the counter of each client counts its own
requests, whatever the others do.
-/
import GoodGoodStudy.Dali.Http.Session

namespace GoodGoodStudy.Dali

open GoodGoodStudy.Lib

variable {τ : Type} (uuid4 : Nat → String)

/-- `counter`; its two accesses read the clock. -/
def counter (s : Visit Nat τ) (now₁ now₂ : τ) : Visit Nat τ × Option Response.Call :=
  match s.access uuid4 (now₁, .getSession "count") with
  | (s, .got _ value) =>
    let count := value.getD 0 + 1
    match s.access uuid4 (now₂, .setSession "count" count) with
    | (s, .set _) => (s, some (.end (encode ("count is " ++ toString count))))
    | (s, _) => (s, none)
  | (s, _) => (s, none)

/-- What outlives a request. -/
structure Server (τ : Type) where
  drawn : Nat
  manager : SessionStore Nat τ

def Server.init : Server τ := ⟨0, BaseCacheManager.init⟩

/-- A request for the page, and the times at which its accesses read the clock. -/
structure Incoming (τ : Type) where
  scope : Scope
  now₁ : τ
  now₂ : τ

def Incoming.cookie (r : Incoming τ) : Option Bytes := (Request.init r.scope).sessionCookie

/-- A request from its response to the end of the action; no answer if the cookie cannot be decoded. -/
def serve (sv : Server τ) (r : Incoming τ) : Server τ × Option Response :=
  match Response.init uuid4 (.init r.scope) sv.drawn with
  | (none, _, drawn) => (⟨drawn, sv.manager⟩, none)
  | (some res, request, drawn) =>
    match counter uuid4 ⟨request, drawn, sv.manager⟩ r.now₁ r.now₂ with
    | (s, some c) => (⟨s.drawn, s.manager⟩, some (res.call c))
    | (s, none) => (⟨s.drawn, s.manager⟩, none)

/-- The session id of a draw. -/
def sessionIdOf (n : Nat) : Bytes := encode ("daliApi:session:" ++ uuid4 n)

variable {uuid4} in
theorem sessionIdOf_injective (huuid : Function.Injective uuid4) :
    Function.Injective (sessionIdOf uuid4) := fun _ _ h =>
  huuid ((String.append_right_inj _).1 (encode_injective h))

/-! ## The accesses -/

namespace SessionStore

/-- `get_data` changes no entry, be it of the session asked for or of another. -/
theorem runGetData_frame {ν : Type} (m : SessionStore ν τ) (id : Bytes) (now : τ) (id' : Bytes) :
    entries (m.runGetData (sessionCacheManager ν τ) id none none now).1 id' = entries m id' := by
  cases hget : m.cacheMap.get? id with
  | some w =>
    simp [BaseCacheManager.runGetData, BaseCacheManager.runReload, sessionCacheManager, entries, hget]
  | none =>
    by_cases h : id' = id
    · subst h
      simp [BaseCacheManager.runGetData, BaseCacheManager.runRetrieve, BaseCacheManager.runWrap, sessionCacheManager,
        entries, hget]
    · simp [BaseCacheManager.runGetData, BaseCacheManager.runRetrieve, BaseCacheManager.runWrap, sessionCacheManager,
        entries, hget, h]

theorem assign_frame {ν : Type} (m : SessionStore ν τ) {id id' : Bytes} (h : id' ≠ id) (data : Dict String ν) :
    entries (assign m id data) id' = entries m id' := by
  unfold assign
  cases m.cacheMap.get? id with
  | none => rfl
  | some w => simp [entries, h]

end SessionStore

namespace Visit

variable {uuid4}

/-- The session that an access goes to next: that of the cookie, or a new one. -/
def Next (uuid4 : Nat → String) (s : Visit Nat τ) (id : Bytes) (s' : Visit Nat τ) : Prop :=
  (s.request.sessionCookie = some id ∧ s'.request.sessionCookie = some id ∧ s'.drawn = s.drawn) ∨
    s.request.sessionCookie = none ∧ s'.request.sessionCookie = none ∧ id = sessionIdOf uuid4 s.drawn ∧
      s'.drawn = s.drawn + 1

theorem Next.of_some {s s' : Visit Nat τ} {id c : Bytes} (h : Next uuid4 s id s')
    (hc : s.request.sessionCookie = some c) :
    c = id ∧ s'.request.sessionCookie = some id ∧ s'.drawn = s.drawn := by
  rcases h with ⟨h, hcookie, hdrawn⟩ | ⟨h, -⟩
  · exact ⟨Option.some.inj (hc.symm.trans h), hcookie, hdrawn⟩
  · cases hc.symm.trans h

theorem Next.of_none {s s' : Visit Nat τ} {id : Bytes} (h : Next uuid4 s id s') (hc : s.request.sessionCookie = none) :
    s'.request.sessionCookie = none ∧ id = sessionIdOf uuid4 s.drawn ∧ s'.drawn = s.drawn + 1 := by
  rcases h with ⟨h, -⟩ | ⟨-, h⟩
  · cases hc.symm.trans h
  · exact h

theorem session_spec (s : Visit Nat τ) (now : τ) :
    ∃ id s', s.session uuid4 now = (id, some (SessionStore.entries s.manager id), s') ∧ Next uuid4 s id s' ∧
      (s'.manager.cacheMap.get? id).isSome ∧
        ∀ id', SessionStore.entries s'.manager id' = SessionStore.entries s.manager id' := by
  have hid : ∃ id r drawn, s.request.readSessionId uuid4 s.drawn = (id, r, drawn) ∧
      ∀ m, Next uuid4 s id ⟨r, drawn, m⟩ := by
    cases hcookie : s.request.sessionCookie with
    | some id =>
      obtain ⟨r, hread, hr, -⟩ := Request.readSessionId_of_cookie uuid4 hcookie s.drawn
      exact ⟨id, r, s.drawn, hread, fun m => .inl ⟨hcookie, hr, rfl⟩⟩
    | none =>
      obtain ⟨r, hread, hr, -⟩ := Request.readSessionId_of_no_cookie uuid4 hcookie s.drawn
      exact ⟨_, r, s.drawn + 1, hread, fun m => .inr ⟨hcookie, hr, rfl, rfl⟩⟩
  obtain ⟨id, r, drawn, hread, hnext⟩ := hid
  obtain ⟨m, hget, hstored, -⟩ := SessionStore.runGetData_entries s.manager id now
  have hframe := SessionStore.runGetData_frame s.manager id now
  rw [hget] at hframe
  exact ⟨id, ⟨r, drawn, m⟩, by simp [session, hread, hget], hnext m, hstored, hframe⟩

end Visit

/-- What the page says. -/
def countPage (count : Nat) : Response.Call := .end (encode ("count is " ++ toString count))

/-- The number that the session has. -/
def stored (m : SessionStore Nat τ) (id : Bytes) : Option Nat := (SessionStore.entries m id).get? "count"

/-- The entry that is read, and the one that is written. -/
theorem counter_spec (s : Visit Nat τ) (now₁ now₂ : τ) :
    ∃ id₁ id₂ s₁ s', Visit.Next uuid4 s id₁ s₁ ∧ Visit.Next uuid4 s₁ id₂ s' ∧
      counter uuid4 s now₁ now₂ = (s', some (countPage ((stored s.manager id₁).getD 0 + 1))) ∧
      stored s'.manager id₂ = some ((stored s.manager id₁).getD 0 + 1) ∧
        ∀ id', id' ≠ id₂ → stored s'.manager id' = stored s.manager id' := by
  obtain ⟨id₁, s₁, hs₁, hnext₁, -, hframe₁⟩ := @Visit.session_spec _ uuid4 s now₁
  obtain ⟨id₂, s₂, hs₂, hnext₂, hstored, hframe₂⟩ := @Visit.session_spec _ uuid4 s₁ now₂
  have hread : (SessionStore.entries s.manager id₁).get? "count" = stored s.manager id₁ := rfl
  refine ⟨id₁, id₂, s₁, ⟨s₂.request, s₂.drawn, SessionStore.assign s₂.manager id₂
    ((SessionStore.entries s₁.manager id₂).set "count" ((stored s.manager id₁).getD 0 + 1))⟩, hnext₁, hnext₂, ?_, ?_,
    fun id' hid' => ?_⟩
  · simp only [counter, Visit.access, hs₁, hs₂, hread]
    rfl
  · rw [stored, SessionStore.entries_assign hstored, Dict.get?_set, if_pos rfl]
  · rw [stored, SessionStore.assign_frame _ hid', hframe₂, hframe₁]
    rfl

namespace Response

variable {uuid4} {scope : Scope}

theorem init_of_cookie {id : String} (hcookie : (Request.init scope).sessionCookie = some (encode id)) (drawn : Nat) :
    ∃ res req, init uuid4 (.init scope) drawn = (some res, req, drawn) ∧
      req.sessionCookie = some (encode id) ∧ blank.setCookie sessionIdKey id = some res := by
  obtain ⟨r, hread, hr, -⟩ := Request.readSessionId_of_cookie uuid4 hcookie drawn
  obtain ⟨res, hres⟩ : ∃ res, blank.setCookie sessionIdKey id = some res := ⟨_, rfl⟩
  refine ⟨res, { r with sessionIdStr := some id }, ?_, ?_, hres⟩
  · have htext : (Request.init scope).sessionIdStr = none := rfl
    simp only [init, Request.readSessionIdStr, htext, hread, decode_encode, Option.bind_some, hres]
  · rw [← hr]
    exact Request.sessionCookie_remember r _ r.sessionId

theorem init_of_none (hcookie : (Request.init scope).sessionCookie = none) (drawn : Nat) :
    ∃ res req, init uuid4 (.init scope) drawn = (some res, req, drawn + 1) ∧ req.sessionCookie = none ∧
      blank.setCookie sessionIdKey ("daliApi:session:" ++ uuid4 drawn) = some res := by
  obtain ⟨r, hread, hr, -⟩ := Request.readSessionId_of_no_cookie uuid4 hcookie drawn
  obtain ⟨res, hres⟩ : ∃ res, blank.setCookie sessionIdKey ("daliApi:session:" ++ uuid4 drawn) = some res := ⟨_, rfl⟩
  refine ⟨res, { r with sessionIdStr := some ("daliApi:session:" ++ uuid4 drawn) }, ?_, ?_, hres⟩
  · have htext : (Request.init scope).sessionIdStr = none := rfl
    simp only [init, Request.readSessionIdStr, htext, hread, decode_encode, Option.bind_some, hres]
  · rw [← hr]
    exact Request.sessionCookie_remember r _ r.sessionId

theorem init_of_undecodable {c : Bytes} (hcookie : (Request.init scope).sessionCookie = some c)
    (hdecode : decode c = none)
    (drawn : Nat) : ∃ req, init uuid4 (.init scope) drawn = (none, req, drawn) := by
  obtain ⟨r, hread, -, -⟩ := Request.readSessionId_of_cookie uuid4 hcookie drawn
  refine ⟨r, ?_⟩
  have htext : (Request.init scope).sessionIdStr = none := rfl
  simp only [init, Request.readSessionIdStr, htext, hread, hdecode]
  rfl

/-- The page as it is sent. -/
theorem setCookie_call {id : String} {res : Response} (hres : blank.setCookie sessionIdKey id = some res)
    (count : Nat) :
    (res.call (countPage count)).body = encode ("count is " ++ toString count) ∧
      ∀ b, (ascii "set-cookie", .bytes b) ∈ (res.call (countPage count)).getHeaders ↔
        b = encode (cookieText sessionIdKey id) := by
  refine ⟨?_, fun b => ?_⟩
  · cases hres
    rfl
  · rw [← setCookie_sent hres]
    cases hres
    rfl

end Response

variable {uuid4} {sv : Server τ} {r : Incoming τ}

/-- The response to a request, and the session that its header names. -/
structure Answered (res : Response) (count : Nat) (id : String) : Prop where
  body : res.body = encode ("count is " ++ toString count)
  header : ∀ b, (ascii "set-cookie", .bytes b) ∈ res.getHeaders ↔ b = encode (Response.cookieText sessionIdKey id)

/-- A request with a cookie goes on with its session. -/
theorem serve_of_cookie {id : String} (hcookie : r.cookie = some (encode id)) :
    ∃ res m', serve uuid4 sv r = (⟨sv.drawn, m'⟩, some res) ∧
      Answered res ((stored sv.manager (encode id)).getD 0 + 1) id ∧
      stored m' (encode id) = some ((stored sv.manager (encode id)).getD 0 + 1) ∧
        ∀ id', id' ≠ encode id → stored m' id' = stored sv.manager id' := by
  obtain ⟨res, req, hinit, hreq, hres⟩ := @Response.init_of_cookie uuid4 _ _ hcookie sv.drawn
  obtain ⟨id₁, id₂, s₁, s', hnext₁, hnext₂, hcounter, hwritten, hframe⟩ :=
    counter_spec uuid4 ⟨req, sv.drawn, sv.manager⟩ r.now₁ r.now₂
  obtain ⟨rfl, hcookie₁, hdrawn₁⟩ := hnext₁.of_some hreq
  obtain ⟨rfl, -, hdrawn₂⟩ := hnext₂.of_some hcookie₁
  obtain ⟨hbody, hheader⟩ := Response.setCookie_call hres ((stored sv.manager (encode id)).getD 0 + 1)
  refine ⟨_, s'.manager, ?_, ⟨hbody, hheader⟩, hwritten, hframe⟩
  rw [serve, hinit]
  dsimp only
  rw [hcounter]
  dsimp only
  rw [hdrawn₂, hdrawn₁]

/-- A request without one leaves a number under an id that is in no header. -/
theorem serve_of_no_cookie (hcookie : r.cookie = none) :
    ∃ res m', serve uuid4 sv r = (⟨sv.drawn + 3, m'⟩, some res) ∧
      Answered res ((stored sv.manager (sessionIdOf uuid4 (sv.drawn + 1))).getD 0 + 1)
        ("daliApi:session:" ++ uuid4 sv.drawn) ∧
        ∀ id', id' ≠ sessionIdOf uuid4 (sv.drawn + 2) → stored m' id' = stored sv.manager id' := by
  obtain ⟨res, req, hinit, hreq, hres⟩ := @Response.init_of_none uuid4 _ hcookie sv.drawn
  obtain ⟨id₁, id₂, s₁, s', hnext₁, hnext₂, hcounter, -, hframe⟩ :=
    counter_spec uuid4 ⟨req, sv.drawn + 1, sv.manager⟩ r.now₁ r.now₂
  obtain ⟨hcookie₁, rfl, hdrawn₁⟩ := hnext₁.of_none hreq
  obtain ⟨-, rfl, hdrawn₂⟩ := hnext₂.of_none hcookie₁
  rw [hdrawn₁] at hdrawn₂ hframe
  obtain ⟨hbody, hheader⟩ :=
    Response.setCookie_call hres ((stored sv.manager (sessionIdOf uuid4 (sv.drawn + 1))).getD 0 + 1)
  refine ⟨_, s'.manager, ?_, ⟨hbody, hheader⟩, hframe⟩
  rw [serve, hinit]
  dsimp only
  rw [hcounter]
  dsimp only
  rw [hdrawn₂]

theorem serve_of_undecodable {c : Bytes} (hcookie : r.cookie = some c) (hdecode : decode c = none) :
    serve uuid4 sv r = (sv, none) := by
  obtain ⟨req, hinit⟩ := @Response.init_of_undecodable uuid4 _ _ hcookie hdecode sv.drawn
  rw [serve, hinit]

theorem drawn_le_serve (sv : Server τ) (r : Incoming τ) : sv.drawn ≤ (serve uuid4 sv r).1.drawn := by
  cases hcookie : r.cookie with
  | none =>
    obtain ⟨res, m', hserve, -⟩ := @serve_of_no_cookie _ uuid4 sv _ hcookie
    rw [hserve]
    exact Nat.le_add_right _ _
  | some c =>
    cases hdecode : decode c with
    | none => rw [serve_of_undecodable hcookie hdecode]
    | some id =>
      rw [← encode_of_decode hdecode] at hcookie
      obtain ⟨res, m', hserve, -⟩ := @serve_of_cookie _ uuid4 sv _ _ hcookie
      rw [hserve]

/-! ## Whole runs -/

/-- How often a client with that session asked before. -/
def visits (h : List (Incoming τ)) (id : String) : Nat := h.countP fun r => r.cookie = some (encode id)

theorem visits_concat (h : List (Incoming τ)) (r : Incoming τ) (id : String) :
    visits (h ++ [r]) id = visits h id + if r.cookie = some (encode id) then 1 else 0 := by
  simp [visits, List.countP_append, List.countP_cons]

/-- A client has no id that the server draws but one that was in a header: the first of three. -/
def Given (uuid4 : Nat → String) (sv : Server τ) (r : Incoming τ) : Prop :=
  ∀ n, r.cookie = some (sessionIdOf uuid4 n) → n % 3 = 0 ∧ n < sv.drawn

/-- What is stored after some requests. -/
structure Counts (uuid4 : Nat → String) (h : List (Incoming τ)) (sv : Server τ) : Prop where
  drawn : sv.drawn % 3 = 0
  count : ∀ id : String, (∀ n, n % 3 ≠ 0 → encode id ≠ sessionIdOf uuid4 n) →
    (stored sv.manager (encode id)).getD 0 = visits h id
  unread : ∀ n, sv.drawn ≤ n → n % 3 ≠ 0 → stored sv.manager (sessionIdOf uuid4 n) = none
  unseen : ∀ n, sv.drawn ≤ n → visits h ("daliApi:session:" ++ uuid4 n) = 0

theorem counts_init : Counts uuid4 ([] : List (Incoming τ)) .init :=
  ⟨rfl, fun _ _ => rfl, fun _ _ _ => rfl, fun _ _ => rfl⟩

theorem counts_serve (huuid : Function.Injective uuid4) {h : List (Incoming τ)} (hsv : Counts uuid4 h sv)
    (hgiven : Given uuid4 sv r) : Counts uuid4 (h ++ [r]) (serve uuid4 sv r).1 := by
  have hdrawn := hsv.drawn
  have hunseen : ∀ n, sv.drawn ≤ n → visits (h ++ [r]) ("daliApi:session:" ++ uuid4 n) = 0 := by
    intro n hn
    have hne : r.cookie ≠ some (sessionIdOf uuid4 n) := fun heq => by
      have := (hgiven n heq).2
      omega
    rw [visits_concat, hsv.unseen n hn, Nat.zero_add]
    exact if_neg hne
  cases hcookie : r.cookie with
  | none =>
    obtain ⟨res, m', hserve, -, hframe⟩ := @serve_of_no_cookie _ uuid4 sv _ hcookie
    rw [hserve]
    refine ⟨?_, fun id hid => ?_, fun n (hn : sv.drawn + 3 ≤ n) hmod => ?_, fun n (hn : sv.drawn + 3 ≤ n) =>
      hunseen n (by omega)⟩
    · show (sv.drawn + 3) % 3 = 0
      omega
    · rw [visits_concat, hcookie, hframe _ (hid (sv.drawn + 2) (by omega)), hsv.count id hid]
      rfl
    · have hne : sessionIdOf uuid4 n ≠ sessionIdOf uuid4 (sv.drawn + 2) := fun heq => by
        have := sessionIdOf_injective huuid heq
        omega
      rw [hframe _ hne]
      exact hsv.unread n (by omega) hmod
  | some c =>
    cases hdecode : decode c with
    | none =>
      rw [serve_of_undecodable hcookie hdecode]
      refine ⟨hdrawn, fun id hid => ?_, hsv.unread, hunseen⟩
      have hne : c ≠ encode id := fun heq => by
        rw [heq, decode_encode] at hdecode
        cases hdecode
      rw [visits_concat, hcookie, hsv.count id hid, if_neg fun h => hne (Option.some.inj h), Nat.add_zero]
    | some id₀ =>
      obtain rfl := encode_of_decode hdecode
      obtain ⟨res, m', hserve, -, hwritten, hframe⟩ := @serve_of_cookie _ uuid4 sv _ _ hcookie
      rw [hserve]
      refine ⟨hdrawn, fun id hid => ?_, fun n hn hmod => ?_, hunseen⟩
      · rw [visits_concat, hcookie]
        by_cases heq : id = id₀
        · subst heq
          rw [hwritten, hsv.count id hid, if_pos rfl]
          rfl
        · have hne : encode id ≠ encode id₀ := fun h => heq (encode_injective h)
          rw [hframe _ hne, hsv.count id hid, if_neg fun h => hne (Option.some.inj h).symm, Nat.add_zero]
      · rw [hframe _ fun h => hmod (hgiven n (hcookie.trans (congrArg some h.symm))).1]
        exact hsv.unread n hn hmod

/-! ## Clients -/

variable (uuid4) in
/-- The server after some requests. -/
def served (h : List (Incoming τ)) : Server τ := final (serve uuid4) .init h

variable (uuid4) in
/-- A response named the session in its header. -/
def Issued (h : List (Incoming τ)) (c : Bytes) : Prop :=
  ∃ pre r res id, pre ++ [r] <+: h ∧ (serve uuid4 (served uuid4 pre) r).2 = some res ∧
    (ascii "set-cookie", .bytes (encode (Response.cookieText sessionIdKey id))) ∈ res.getHeaders ∧ c = encode id

variable (uuid4) in
/-- The clients have their ids from the headers, or others that the server never draws. -/
def Honest (h : List (Incoming τ)) : Prop :=
  ∀ pre r, pre ++ [r] <+: h → ∀ c, r.cookie = some c → Issued uuid4 pre c ∨ ∀ n, c ≠ sessionIdOf uuid4 n

theorem served_concat (h : List (Incoming τ)) (r : Incoming τ) :
    served uuid4 (h ++ [r]) = (serve uuid4 (served uuid4 h) r).1 := by
  rw [served, final_append]
  rfl

theorem drawn_mono {pre h : List (Incoming τ)} (hpre : pre <+: h) :
    (served uuid4 pre).drawn ≤ (served uuid4 h).drawn := by
  obtain ⟨rest, rfl⟩ := hpre
  induction rest using List.reverseRecOn with
  | nil => rw [List.append_nil]
  | append_singleton rest r ih =>
    rw [← List.append_assoc, served_concat]
    exact ih.trans (drawn_le_serve _ _)

/-- Headers name the cookie of the request, or the first of three draws. -/
theorem given_of_issued (huuid : Function.Injective uuid4) {h : List (Incoming τ)} {n : Nat}
    (hbefore : ∀ pre r, pre ++ [r] <+: h → Counts uuid4 pre (served uuid4 pre) ∧ Given uuid4 (served uuid4 pre) r)
    (hissued : Issued uuid4 h (sessionIdOf uuid4 n)) : n % 3 = 0 ∧ n < (served uuid4 h).drawn := by
  obtain ⟨pre, r, res, id, hpre, hserve, hheader, hid⟩ := hissued
  obtain ⟨hcounts, hgiven⟩ := hbefore pre r hpre
  have hmono := @drawn_mono _ uuid4 _ _ hpre
  rw [served_concat] at hmono
  cases hcookie : r.cookie with
  | none =>
    obtain ⟨res', m', hserve', hanswered, -⟩ := @serve_of_no_cookie _ uuid4 (served uuid4 pre) _ hcookie
    rw [hserve'] at hserve hmono
    cases hserve
    have hname := Response.cookieText_injective _ (encode_injective ((hanswered.header _).1 hheader))
    rw [hname] at hid
    have hn := sessionIdOf_injective huuid hid
    exact ⟨hn ▸ hcounts.drawn, hn ▸ Nat.lt_of_lt_of_le (Nat.lt_add_of_pos_right (Nat.succ_pos 2)) hmono⟩
  | some c =>
    cases hdecode : decode c with
    | none =>
      rw [serve_of_undecodable hcookie hdecode] at hserve
      cases hserve
    | some id₀ =>
      obtain rfl := encode_of_decode hdecode
      obtain ⟨res', m', hserve', hanswered, -⟩ := @serve_of_cookie _ uuid4 (served uuid4 pre) _ _ hcookie
      rw [hserve'] at hserve hmono
      cases hserve
      have hname := Response.cookieText_injective _ (encode_injective ((hanswered.header _).1 hheader))
      obtain ⟨hmod, hlt⟩ := hgiven n (hcookie.trans (congrArg some ((congrArg encode hname).symm.trans hid.symm)))
      exact ⟨hmod, Nat.lt_of_lt_of_le hlt hmono⟩

theorem honest_counts (huuid : Function.Injective uuid4) (h : List (Incoming τ)) (hhonest : Honest uuid4 h) :
    Counts uuid4 h (served uuid4 h) ∧ ∀ pre r, pre ++ [r] <+: h → Counts uuid4 pre (served uuid4 pre) ∧
      Given uuid4 (served uuid4 pre) r := by
  induction h using List.reverseRecOn with
  | nil => exact ⟨counts_init, fun pre r hpre => by simp at hpre⟩
  | append_singleton h r ih =>
    obtain ⟨hcounts, hbefore⟩ := ih fun pre r' hpre => hhonest pre r' (hpre.trans (List.prefix_append h [r]))
    have hgiven : Given uuid4 (served uuid4 h) r := by
      intro n hn
      rcases hhonest h r List.prefix_rfl _ hn with hissued | hnever
      · exact given_of_issued huuid hbefore hissued
      · exact absurd rfl (hnever n)
    refine ⟨@served_concat _ uuid4 h r ▸ counts_serve huuid hcounts hgiven, fun pre r' hpre => ?_⟩
    rcases List.prefix_concat_iff.1 hpre with heq | hpre
    · obtain ⟨rfl, hr⟩ := List.append_inj' heq rfl
      obtain rfl := List.singleton_inj.1 hr
      exact ⟨hcounts, hgiven⟩
    · exact hbefore pre r' hpre

/-- Every request that can be answered names a session and gets the number of the requests that were made with it, this
one included: the session of its cookie, or one that nobody has had before. -/
theorem counter_counts (huuid : Function.Injective uuid4) (h : List (Incoming τ)) (r : Incoming τ)
    (hhonest : Honest uuid4 (h ++ [r])) (hdecode : ∀ c, r.cookie = some c → decode c ≠ none) :
    ∃ res id, (serve uuid4 (served uuid4 h) r).2 = some res ∧ Answered res (visits h id + 1) id ∧
      (∀ c, r.cookie = some c → c = encode id) ∧ (r.cookie = none → visits h id = 0) := by
  obtain ⟨-, hbefore⟩ := honest_counts huuid _ hhonest
  obtain ⟨hcounts, hgiven⟩ := hbefore h r List.prefix_rfl
  have hdrawn := hcounts.drawn
  cases hcookie : r.cookie with
  | none =>
    obtain ⟨res, m', hserve, hanswered, -⟩ := @serve_of_no_cookie _ uuid4 (served uuid4 h) _ hcookie
    rw [hcounts.unread _ (Nat.le_succ _) (by omega)] at hanswered
    have hunseen := hcounts.unseen (served uuid4 h).drawn le_rfl
    exact ⟨res, _, by rw [hserve], hunseen.symm ▸ hanswered, fun c hc => by (cases hc), fun _ => hunseen⟩
  | some c =>
    obtain ⟨id, hid⟩ := Option.ne_none_iff_exists'.1 (hdecode c hcookie)
    obtain rfl := encode_of_decode hid
    obtain ⟨res, m', hserve, hanswered, -⟩ := @serve_of_cookie _ uuid4 (served uuid4 h) _ _ hcookie
    have hcount := hcounts.count id fun n hn heq => hn (hgiven n (hcookie.trans (congrArg some heq))).1
    exact ⟨res, id, by rw [hserve], hcount ▸ hanswered, fun c hc => (Option.some.inj hc).symm, fun h => by cases h⟩

/-- A request with the cookie `abc`. -/
def cookieRequest : Incoming Nat := ⟨cookieScope, 0, 0⟩

theorem counter_counts_cookie : ∃ res id, (serve letters (served letters [cookieRequest]) cookieRequest).2 = some res ∧
    Answered res (visits [cookieRequest] id + 1) id ∧ (∀ c, cookieRequest.cookie = some c → c = encode id) ∧
      (cookieRequest.cookie = none → visits [cookieRequest] id = 0) := by
  have hcookie : cookieRequest.cookie = some (encode "abc") := by decide
  have hall : ∀ r ∈ [cookieRequest] ++ [cookieRequest], r = cookieRequest := by simp
  apply counter_counts letters_injective
  · intro pre r hpre c hc
    right
    intro n hn
    obtain rfl := hall r (hpre.subset (by simp))
    have habc := encode_injective ((Option.some.inj (hcookie.symm.trans hc)).trans hn)
    have hlist := congrArg (fun s => s.toList.head?) habc
    simp at hlist
  · intro c hc
    rw [← Option.some.inj (hcookie.symm.trans hc), decode_encode]
    exact Option.some_ne_none _

end GoodGoodStudy.Dali
