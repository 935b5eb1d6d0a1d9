/-
`app` of `dali/__init__.py` for HTTP requests: the action that the path names, then the static files, then the page for
404. Each of the handlers may send messages, and whether the next one is asked hangs on one flag of the response, so
that what the client gets need not be one response. It is one exactly if the action ends the response that it begins.
-/
import GoodGoodStudy.Dali.Handlers.StaticFile
import GoodGoodStudy.Dali.Http.Form

namespace GoodGoodStudy.Dali

open GoodGoodStudy.Lib

/-- How a coroutine ends, if it does not wait for a message that does not come. -/
inductive Ending (α : Type) where
  | returns (a : α)
  | raises
  | waits

/-! ## `dali/handlers/dynamic_handler.py` -/

/-- `config.DEFAULT_CONTROLLER` -/
def defaultController : Name := "default".toList

/-- `config.DEFAULT_ACTION` -/
def defaultAction : Name := "index".toList

/-- What an action does with its response before it returns or raises. -/
structure Conduct where
  calls : List Response.Call
  raises : Bool

/-- It is given the request and `req.args`. -/
abbrev Action := Request → List Name → Conduct

/-- What `getattr` finds in a module: nothing or something falsy, a function, or a class; of a class an instance is
called, if there can be one. -/
inductive Attribute where
  | falsy
  | function (action : Action)
  | cls (made : Option Action)

/-- What there is for the name of a controller: no file, a file that `ModulesCacheManager` gives no module for or that
cannot be imported, or a module. -/
inductive Controller where
  | absent
  | noModule
  | raises
  | loaded (getattr : Name → Attribute)

/-- The program around the handlers. -/
structure Site where
  controllers : Name → Controller
  fs : FileTree
  root : ServerRoot
  uuid4 : Nat → String
  jsonLoads : Bytes → Except JSONDecodeError Unit
  sioAsgiApp : Scope → List Message × Ending Unit
  wsgiToAsgiApp : Scope → List Message × Ending Unit

namespace Site

/-- `tokens[i] or default`, if there are so many tokens. -/
def token (tokens : List Name) (i : Nat) (default : Name) : Name :=
  match tokens[i]? with
  | none | some [] => default
  | some t => t

def tokens (scope : Scope) : List Name := scope.path.toList.splitOn '/'

inductive Dispatch where
  | nothing
  | raises
  | act (action : Option Action)

/-- The controller and the action that the path names. -/
def dispatch (site : Site) (scope : Scope) : Dispatch :=
  match site.controllers (token (tokens scope) 1 defaultController) with
  | .absent => .nothing
  | .noModule => .nothing
  | .raises => .raises
  | .loaded getattr =>
    match getattr (token (tokens scope) 2 defaultAction) with
    | .falsy => .nothing
    | .function action => .act (some action)
    | .cls made => .act made

/-- The request and the response that an action gets; there is none if the session cookie cannot be decoded, if the
form cannot be parsed or if its body does not end. -/
def prepare (site : Site) (scope : Scope) (messages : List ReceiveMessage) (drawn : Nat) :
    Ending (Request × Response) :=
  match Response.init site.uuid4 (.init scope) drawn with
  | (none, _, _) => .raises
  | (some res, req, _) =>
    match req.parseForm site.jsonLoads messages with
    | none => .waits
    | some (.error _, _, _) => .raises
    | some (.ok (), req, _) => .returns (req, res)

/-- `handle_dynamic_request`; the value `None` that it returns without a controller counts as `False`. -/
def handleDynamicRequest (site : Site) (scope : Scope) (messages : List ReceiveMessage) (drawn : Nat) :
    List Message × Ending Bool :=
  match site.dispatch scope with
  | .nothing => ([], .returns false)
  | .raises => ([], .raises)
  | .act action =>
    match site.prepare scope messages drawn, action with
    | .waits, _ => ([], .waits)
    | .raises, _ => ([], .raises)
    | .returns _, none => ([], .raises)
    | .returns (req, res), some action =>
      let conduct := action req ((tokens scope).drop 3)
      let res := res.calls conduct.calls
      (res.sent, if conduct.raises then .raises else .returns res.bodySent)

end Site

/-- `send_404_error` of `dali/handlers/error_pages.py`. -/
def send404Error : List Message :=
  [.start 404 [(ascii "content-type", .bytes (ascii "text/html"))], .body (ascii "<h1>404 Not Found</h1>") false]

namespace Site

/-- `app`, for a scope of the type `http`. -/
def app (site : Site) (scope : Scope) (messages : List ReceiveMessage) (drawn : Nat) : List Message × Ending Unit :=
  if "/socket.io".toList <+: scope.path.toList then site.sioAsgiApp scope
  else if "/wsgi".toList <+: scope.path.toList then site.wsgiToAsgiApp scope
  else
    match site.handleDynamicRequest scope messages drawn with
    | (sent, .waits) => (sent, .waits)
    | (sent, .raises) => (sent, .raises)
    | (sent, .returns true) => (sent, .returns ())
    | (sent, .returns false) =>
      let static := handleStaticFileRequest site.fs site.root scope
      match static.result with
      | .error _ => (sent ++ static.sent, .raises)
      | .ok true => (sent ++ static.sent, .returns ())
      | .ok false => (sent ++ static.sent ++ send404Error, .returns ())

end Site

/-! ## Complete responses -/

/-- One response from its start to its last body. -/
structure CompleteResponse (ms : List Message) : Prop where
  legal : LegalPrefix ms
  last : ∃ m ∈ ms, m.isLast = true

theorem Phase.run_accept_finished {ms : List Message} {p p' : Phase} (h : run accept p ms = some p') :
    p' = finished ↔ p = finished ∨ ∃ m ∈ ms, m.isLast = true := by
  induction ms generalizing p with
  | nil =>
    cases h
    simp
  | cons m ms ih =>
    obtain ⟨q, hq, h⟩ := run_cons_some.1 h
    rw [ih h]
    cases p <;> cases m <;> cases hq <;> simp

theorem completeResponse_iff {ms : List Message} :
    CompleteResponse ms ↔ run Phase.accept .idle ms = some .finished := by
  constructor
  · rintro ⟨hlegal, hlast⟩
    obtain ⟨p, hp⟩ := Option.isSome_iff_exists.1 ((Phase.accept_idle ms).2 hlegal)
    rw [hp, (Phase.run_accept_finished hp).2 (.inr hlast)]
  · intro h
    refine ⟨(Phase.accept_idle ms).1 (Option.isSome_of_eq_some h), ?_⟩
    exact ((Phase.run_accept_finished h).1 rfl).resolve_left (by rintro ⟨⟩)

namespace Response

/-- The body is finished exactly by an `end`. -/
theorem calls_bodySent (res : Response) (cs : List Call) :
    (res.calls cs).bodySent = true ↔ res.bodySent = true ∨ ∃ c ∈ cs, c.isEnd = true := by
  induction cs generalizing res with
  | nil => simp [calls]
  | cons c cs ih =>
    have hstep : (res.calls (c :: cs)).bodySent = ((res.call c).calls cs).bodySent := rfl
    rw [hstep, ih, (call_flags res c).2, or_assoc, List.exists_mem_cons_iff]

theorem run_acceptCall_finished {cs : List Call} {p p' : Phase} (h : run Phase.acceptCall p cs = some p') :
    p' = .finished ↔ p = .finished ∨ ∃ c ∈ cs, c.isEnd = true := by
  induction cs generalizing p with
  | nil =>
    cases h
    simp
  | cons c cs ih =>
    obtain ⟨q, hq, h⟩ := run_cons_some.1 h
    rw [ih h]
    cases p <;> cases c <;> cases hq <;> simp [Call.isEnd]

/-- Every call leaves the first phase. -/
theorem run_acceptCall_ne_idle {cs : List Call} {p p' : Phase} (h : run Phase.acceptCall p cs = some p')
    (hcs : p ≠ .idle ∨ cs ≠ []) : p' ≠ .idle := by
  induction cs generalizing p with
  | nil =>
    cases h
    exact hcs.resolve_right fun h => h rfl
  | cons c cs ih =>
    obtain ⟨q, hq, h⟩ := run_cons_some.1 h
    apply ih h
    left
    cases p <;> cases c <;> cases hq <;> rintro ⟨⟩

/-- The messages of a new response go the way of its calls. -/
theorem accept_calls {res : Response} (hres : res.Fresh) (cs : List Call) :
    run Phase.accept .idle (res.calls cs).sent = run Phase.acceptCall .idle cs := by
  obtain ⟨hh, hb, hs⟩ := hres
  exact calls_accepted ⟨by simp [hh], by simp [hb], by simp [hs]⟩ cs

theorem calls_complete_iff {res : Response} (hres : res.Fresh) (cs : List Call) :
    CompleteResponse (res.calls cs).sent ↔ InOrder cs ∧ ∃ c ∈ cs, c.isEnd = true := by
  rw [completeResponse_iff, accept_calls hres, ← acceptCall_idle]
  constructor
  · intro h
    exact ⟨Option.isSome_of_eq_some h, ((run_acceptCall_finished h).1 rfl).resolve_left (by rintro ⟨⟩)⟩
  · rintro ⟨h, hend⟩
    obtain ⟨p, hp⟩ := Option.isSome_iff_exists.1 h
    rw [hp, (run_acceptCall_finished hp).2 (.inr hend)]

/-- Behind a response that has been begun, another one is illegal; behind one of which nothing is sent it is what the
client gets. -/
theorem calls_append_complete_iff {res : Response} (hres : res.Fresh) (cs : List Call) {ms : List Message}
    (hms : CompleteResponse ms) : CompleteResponse ((res.calls cs).sent ++ ms) ↔ cs = [] := by
  rw [completeResponse_iff] at hms
  rw [completeResponse_iff, run_append, accept_calls hres]
  constructor
  · intro h
    by_contra hcs
    obtain ⟨p, hp, h⟩ := Option.bind_eq_some_iff.1 h
    have hidle := run_acceptCall_ne_idle hp (.inr hcs)
    cases ms with
    | nil => cases hms
    | cons m ms =>
      obtain ⟨q, hq, -⟩ := run_cons_some.1 hms
      obtain ⟨q', hq', -⟩ := run_cons_some.1 h
      cases m <;> cases hq
      cases p
      · exact hidle rfl
      · cases hq'
      · cases hq'
  · rintro rfl
    exact hms

end Response

/-! ## The handlers behind -/

theorem complete_send404Error : CompleteResponse send404Error := completeResponse_iff.2 rfl

theorem serveFile_complete (filePath : List Char) (path : List Name) (content : Bytes) (mtime : Int)
    (headers : List (List Bytes)) :
    (serveFile filePath path content mtime (some headers)).result = .ok true ∧
      CompleteResponse (serveFile filePath path content mtime (some headers)).sent := by
  unfold serveFile
  dsimp only
  split
  · exact ⟨rfl, completeResponse_iff.2 rfl⟩
  · exact ⟨rfl, completeResponse_iff.2 rfl⟩

/-- The static files answer or leave it to the page for 404. -/
theorem static_cases (fs : FileTree) (root : ServerRoot) (scope : Scope) {headers : List (List Bytes)}
    (hheaders : scope.headers = some headers) :
    ((handleStaticFileRequest fs root scope).result = .ok true ∧
        CompleteResponse (handleStaticFileRequest fs root scope).sent) ∨
      (handleStaticFileRequest fs root scope).result = .ok false ∧
        (handleStaticFileRequest fs root scope).sent = [] := by
  unfold handleStaticFileRequest
  split
  · exact .inr ⟨rfl, rfl⟩
  · dsimp only
    split
    · rw [hheaders]
      exact .inl (serveFile_complete _ _ _ _ headers)
    · exact .inr ⟨rfl, rfl⟩

namespace Site

/-- What comes behind an action that has not finished its response. -/
theorem app_of_not_sent {site : Site} {scope : Scope} {messages : List ReceiveMessage} {drawn : Nat}
    {sent : List Message} (hsio : ¬"/socket.io".toList <+: scope.path.toList)
    (hwsgi : ¬"/wsgi".toList <+: scope.path.toList)
    {headers : List (List Bytes)} (hheaders : scope.headers = some headers)
    (hdynamic : site.handleDynamicRequest scope messages drawn = (sent, .returns false)) :
    ∃ ms, CompleteResponse ms ∧ (site.app scope messages drawn).1 = sent ++ ms := by
  rw [app, if_neg hsio, if_neg hwsgi, hdynamic]
  dsimp only
  rcases static_cases site.fs site.root scope hheaders with ⟨hresult, hcomplete⟩ | ⟨hresult, hsent⟩
  · rw [hresult]
    exact ⟨_, hcomplete, rfl⟩
  · rw [hresult]
    refine ⟨_, complete_send404Error, ?_⟩
    rw [hsent, List.append_nil]

/-- Building the response only computes the session. -/
theorem init_method (uuid4 : Nat → String) (r : Request) (drawn : Nat) :
    (Response.init uuid4 r drawn).2.1.method = r.method := by
  have hcookie : ∀ key, (r.getCookie key).2.method = r.method := by
    intro key
    unfold Request.getCookie Request.fillCookieMap Request.addCookies Request.readCookie
    dsimp only
    split_ifs <;> try rfl
    all_goals split <;> rfl
  have hid : (r.readSessionId uuid4 drawn).2.1.method = r.method := by
    unfold Request.readSessionId
    dsimp only
    split <;> exact hcookie _
  unfold Response.init Request.readSessionIdStr
  cases r.sessionIdStr with
  | some s => rfl
  | none =>
    dsimp only
    split <;> exact hid

/-- A request that is no `POST` has no body to wait for. -/
theorem exists_prepare {site : Site} {scope : Scope} (messages : List ReceiveMessage) {drawn : Nat} {res : Response}
    (hmethod : scope.method ≠ "POST") (hinit : (Response.init site.uuid4 (.init scope) drawn).1 = some res) :
    ∃ req, site.prepare scope messages drawn = .returns (req, res) := by
  have hkeep := init_method site.uuid4 (.init scope) drawn
  rcases h : Response.init site.uuid4 (.init scope) drawn with ⟨res', req, drawn'⟩
  rw [h] at hinit hkeep
  obtain rfl : res' = some res := hinit
  have hreq : req.method ≠ "POST" := fun h => hmethod (hkeep.symm.trans h)
  have hform : ∃ req', req.parseForm site.jsonLoads messages = some (.ok (), req', messages) := by
    unfold Request.parseForm
    by_cases hquery : req.queryString = []
    · rw [if_pos hquery]
      exact ⟨_, if_neg hreq⟩
    · rw [if_neg hquery]
      exact ⟨_, if_neg hreq⟩
  obtain ⟨req', hform⟩ := hform
  refine ⟨req', ?_⟩
  rw [prepare, h]
  dsimp only
  rw [hform]

theorem fresh_prepare {site : Site} {scope : Scope} {messages : List ReceiveMessage} {drawn : Nat} {req : Request}
    {res : Response} (h : site.prepare scope messages drawn = .returns (req, res)) : res.Fresh := by
  unfold prepare at h
  split at h
  · cases h
  · rename_i res' req' drawn' hinit
    split at h <;> cases h
    exact Response.fresh_init (congrArg Prod.fst hinit)

theorem not_complete_nil : ¬CompleteResponse [] := fun h => by
  obtain ⟨m, hm, -⟩ := h.last
  cases hm

/-- The path names no action; or it names one, the action gets its request and response, and it ends the response that
it begins and keeps the order of the calls, or it begins none and returns. -/
def Answers (site : Site) (scope : Scope) (messages : List ReceiveMessage) (drawn : Nat) : Prop :=
  match site.dispatch scope with
  | .nothing => True
  | .act (some action) => ∃ req res, site.prepare scope messages drawn = .returns (req, res) ∧
      let conduct := action req ((tokens scope).drop 3)
      (Response.InOrder conduct.calls ∧ ∃ c ∈ conduct.calls, c.isEnd = true) ∨
        conduct.calls = [] ∧ conduct.raises = false
  | _ => False

/-- An action with its request and response. -/
theorem act_complete_iff {site : Site} {scope : Scope} {messages : List ReceiveMessage} {drawn : Nat} {action : Action}
    {req : Request} {res : Response} (hsio : ¬"/socket.io".toList <+: scope.path.toList)
    (hwsgi : ¬"/wsgi".toList <+: scope.path.toList) {headers : List (List Bytes)}
    (hheaders : scope.headers = some headers)
    (hdispatch : site.dispatch scope = .act (some action))
    (hprepare : site.prepare scope messages drawn = .returns (req, res))
    {conduct : Conduct} (hconduct : action req ((tokens scope).drop 3) = conduct) :
    CompleteResponse (site.app scope messages drawn).1 ↔
      (Response.InOrder conduct.calls ∧ ∃ c ∈ conduct.calls, c.isEnd = true) ∨
        conduct.calls = [] ∧ conduct.raises = false := by
  have hres := fresh_prepare hprepare
  have hdynamic : site.handleDynamicRequest scope messages drawn =
      ((res.calls conduct.calls).sent,
        if conduct.raises then .raises else .returns (res.calls conduct.calls).bodySent) := by
    rw [handleDynamicRequest, hdispatch, hprepare]
    dsimp only
    rw [hconduct]
  have hbody : (res.calls conduct.calls).bodySent = true ↔ ∃ c ∈ conduct.calls, c.isEnd = true := by
    rw [Response.calls_bodySent, hres.2.1]
    simp
  -- what the client gets is the response of the action alone, or another one behind it
  by_cases hraises : conduct.raises = true
  · have happ : (site.app scope messages drawn).1 = (res.calls conduct.calls).sent := by
      rw [app, if_neg hsio, if_neg hwsgi, hdynamic, if_pos hraises]
    rw [happ, Response.calls_complete_iff hres, hraises]
    simp
  · rw [if_neg hraises] at hdynamic
    by_cases hend : ∃ c ∈ conduct.calls, c.isEnd = true
    · have happ : (site.app scope messages drawn).1 = (res.calls conduct.calls).sent := by
        rw [app, if_neg hsio, if_neg hwsgi, hdynamic, hbody.2 hend]
      have hne : conduct.calls ≠ [] := fun h => by simp [h] at hend
      rw [happ, Response.calls_complete_iff hres]
      simp [hne]
    · rw [Bool.eq_false_iff.2 (mt hbody.1 hend)] at hdynamic
      obtain ⟨ms, hms, happ⟩ := app_of_not_sent hsio hwsgi hheaders hdynamic
      rw [happ, Response.calls_append_complete_iff hres _ hms]
      simp [hend, hraises]

/-- `get_args` of `app/controllers/default.py`. -/
def getArgs : Action := fun _ args =>
  ⟨[.write (ascii "Args is "), .end (encode (String.ofList ([','].intercalate args)))], false⟩

/-- A server with the controller `default`, of which only this action is there. -/
def argsSite : Site where
  controllers name :=
    if name = defaultController then
      .loaded fun action => if action = "get_args".toList then .function getArgs else .falsy
    else .absent
  fs := srvTree
  root := srv
  uuid4 n := String.ofList (List.replicate n 'a')
  jsonLoads _ := .ok ()
  sioAsgiApp _ := ([], .returns ())
  wsgiToAsgiApp _ := ([], .returns ())

def argsScope : Scope := ⟨"GET", "/default/get_args/a/b", [], some []⟩

end Site

end GoodGoodStudy.Dali
