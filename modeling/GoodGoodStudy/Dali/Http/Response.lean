/-
`Response` of `dali/http/response.py`: the response object, the messages it passes to `send`, and
the exact calls for which these form a legal ASGI response.

The message protocol is a three-phase automaton. The messages of a response follow it as long as
the calls follow an automaton of their own; the first call that does not makes the messages
illegal for good.
-/
import GoodGoodStudy.Dali.Http.Request
import GoodGoodStudy.Lib.Run

namespace GoodGoodStudy.Dali

open GoodGoodStudy.Lib

/-- `config.SERVER_NAME` -/
def serverName : String := "dali"

/-- An entry of `_headers_map`: a list of values, or a `str`, which iterates over its characters. -/
inductive HeaderEntry where
  | str (s : String)
  | values (vs : List Bytes)

inductive HeaderValue where
  | char (c : Char)
  | bytes (b : Bytes)
  deriving DecidableEq

/-- What a response passes to `send`. -/
inductive Message where
  | start (status : Nat) (headers : List (Bytes × HeaderValue))
  | body (body : Bytes) (moreBody : Bool)
  deriving DecidableEq

structure Response where
  contentType : Bytes
  headerSent : Bool
  bodySent : Bool
  body : Bytes
  headersMap : Dict Bytes HeaderEntry
  /-- The messages passed to `send` so far. -/
  sent : List Message

namespace Response

/-- The fields before `set_cookie` in `__init__`. -/
def blank : Response where
  contentType := ascii "text/html"
  headerSent := false
  bodySent := false
  body := []
  headersMap := Dict.empty.set (ascii "server") (.str serverName)
  sent := []

/-- The setter of `content_type`. -/
def setContentType (res : Response) (value : Bytes) : Response :=
  { res with
    contentType := value
    headersMap := res.headersMap.set (ascii "content-type") (.values [value]) }

/-- `add_header`; `none` is the `AttributeError` of appending to a `str`. -/
def addHeader (res : Response) (key value : Bytes) : Option Response :=
  match res.headersMap.get? key with
  | none => some { res with headersMap := res.headersMap.set key (.values [value]) }
  | some (.values vs) => some { res with headersMap := res.headersMap.set key (.values (vs ++ [value])) }
  | some (.str _) => none

/-- The text of a cookie with the default age and path; `format` renders the path as a bytes
literal. -/
def cookieText (name value : String) : String := name ++ "=" ++ value ++ "; Max-Age=604800; Path=b'/'"

/-- `set_cookie` with the default age and path. -/
def setCookie (res : Response) (name value : String) : Option Response :=
  res.addHeader (ascii "set-cookie") (encode (cookieText name value))

/-- `__init__`; `none` if reading the session id raises. -/
def init (uuid4 : Nat → String) (request : Request) (drawn : Nat) : Option Response × Request × Nat :=
  let (sessionIdStr, request, drawn) := request.readSessionIdStr uuid4 drawn
  (sessionIdStr.bind fun s => blank.setCookie sessionIdKey s, request, drawn)

def headerValues : HeaderEntry → List HeaderValue
  | .str s => s.toList.map .char
  | .values vs => vs.map .bytes

/-- `_get_headers` -/
def getHeaders (res : Response) : List (Bytes × HeaderValue) :=
  res.headersMap.items.flatMap fun (key, entry) => (headerValues entry).map fun v => (key, v)

def sendHeader (res : Response) (statusCode : Nat) : Response :=
  { res with sent := res.sent ++ [.start statusCode res.getHeaders], headerSent := true }

/-- The first lines of `write` and `end`. -/
def ensureHeader (res : Response) : Response := if res.headerSent then res else res.sendHeader 200

def write (res : Response) (data : Bytes) : Response :=
  let res := res.ensureHeader
  { res with sent := res.sent ++ [.body data true] }

def «end» (res : Response) (data : Bytes) : Response :=
  if res.bodySent then res
  else
    let res := res.ensureHeader
    { res with sent := res.sent ++ [.body data false], body := data, bodySent := true }

/-- A call of one of the three sending methods. -/
inductive Call where
  | sendHeader (statusCode : Nat)
  | write (data : Bytes)
  | «end» (data : Bytes)

def call (res : Response) : Call → Response
  | .sendHeader statusCode => res.sendHeader statusCode
  | .write data => res.write data
  | .end data => res.end data

/-- The calls in order. -/
def calls (res : Response) (cs : List Call) : Response := cs.foldl call res

end Response

/-! ## The message protocol -/

namespace Message

def isStart : Message → Bool
  | start _ _ => true
  | body _ _ => false

def isLast : Message → Bool
  | start _ _ => false
  | body _ moreBody => !moreBody

@[simp] theorem isStart_start (status : Nat) (headers : List (Bytes × HeaderValue)) :
    (start status headers).isStart = true := rfl

@[simp] theorem isStart_body (data : Bytes) (moreBody : Bool) : (body data moreBody).isStart = false := rfl

@[simp] theorem isLast_start (status : Nat) (headers : List (Bytes × HeaderValue)) :
    (start status headers).isLast = false := rfl

@[simp] theorem isLast_body (data : Bytes) (moreBody : Bool) : (body data moreBody).isLast = !moreBody := rfl

end Message

/-- A legal ASGI response, perhaps not finished: at most one start, which precedes every body, and
nothing after a body message with `more_body` false. -/
structure LegalPrefix (ms : List Message) : Prop where
  oneStart : (ms.filter Message.isStart).length ≤ 1
  startFirst : ∀ p m s, ms = p ++ m :: s → m.isStart = false → ∃ m' ∈ p, m'.isStart = true
  nothingAfterLast : ms.Pairwise fun m _ => m.isLast = false

/-- The phases of a response. -/
inductive Phase where
  | idle
  | started
  | finished

namespace Phase

/-- The next phase; `none` if the message is illegal. -/
def accept : Phase → Message → Option Phase
  | idle, .start _ _ => some started
  | started, .body _ moreBody => some (if moreBody then started else finished)
  | _, _ => none

theorem accept_finished (ms : List Message) : (run accept finished ms).isSome ↔ ms = [] := by
  cases ms with
  | nil => simp
  | cons m ms => cases m <;> simp [run_cons, accept]

theorem accept_started (ms : List Message) : (run accept started ms).isSome ↔
    (∀ m ∈ ms, m.isStart = false) ∧ ms.Pairwise fun m _ => m.isLast = false := by
  induction ms with
  | nil => simp
  | cons m ms ih =>
    match m with
    | .start status headers => simp [run_cons, accept]
    | .body data true => simp [run_cons, accept, ih]
    | .body data false =>
      -- the last message must not be followed by another
      simp only [run_cons, accept, Bool.false_eq_true, if_false, Option.bind_some, accept_finished,
        List.pairwise_cons]
      constructor
      · rintro rfl
        simp
      · rintro ⟨-, h, -⟩
        exact List.eq_nil_iff_forall_not_mem.2 fun m hm => by simpa using h m hm

/-- The automaton accepts the legal prefixes. -/
theorem accept_idle (ms : List Message) : (run accept idle ms).isSome ↔ LegalPrefix ms := by
  match ms with
  | [] => exact ⟨fun _ => ⟨by simp, by simp, .nil⟩, fun _ => rfl⟩
  | .body data moreBody :: ms =>
    constructor
    · intro h
      simp [run_cons, accept] at h
    · intro h
      obtain ⟨m, hm, -⟩ := h.startFirst [] _ ms rfl rfl
      cases hm
  | .start status headers :: ms =>
    simp only [run_cons, accept, Option.bind_some, accept_started]
    constructor
    · rintro ⟨hstart, hlast⟩
      have hnil : ms.filter Message.isStart = [] := by simpa using hstart
      refine ⟨by simp [List.filter_cons, hnil], ?_, by simpa using hlast⟩
      intro p m s hms hm
      cases p with
      | nil => cases hms; cases hm
      | cons m' p => cases hms; exact ⟨_, List.mem_cons_self, rfl⟩
    · intro h
      exact ⟨by simpa [List.filter_cons] using h.oneStart, by simpa using h.nothingAfterLast⟩

/-- The next phase after a call; `none` if the call is out of order. -/
def acceptCall : Phase → Response.Call → Option Phase
  | idle, .sendHeader _ => some started
  | finished, .write _ => none
  | _, .sendHeader _ => none
  | _, .write _ => some started
  | _, .end _ => some finished

end Phase

/-! ## The calls that keep to it -/

namespace Response

namespace Call

def isSendHeader : Call → Bool
  | sendHeader _ => true
  | _ => false

def isWrite : Call → Bool
  | write _ => true
  | _ => false

def isEnd : Call → Bool
  | «end» _ => true
  | _ => false

end Call

/-- `send_header` only as the very first call, and no `write` after an `end`. -/
def InOrder (cs : List Call) : Prop :=
  cs.Pairwise fun c d => d.isSendHeader = false ∧ (c.isEnd = true → d.isWrite = false)

instance (cs : List Call) : Decidable (InOrder cs) := inferInstanceAs (Decidable (List.Pairwise _ _))

theorem inOrder_cons {c : Call} {cs : List Call} : InOrder (c :: cs) ↔
    (∀ d ∈ cs, d.isSendHeader = false ∧ (c.isEnd = true → d.isWrite = false)) ∧ InOrder cs := List.pairwise_cons

theorem acceptCall_finished (cs : List Call) : (run Phase.acceptCall .finished cs).isSome ↔
    ∀ c ∈ cs, c.isSendHeader = false ∧ c.isWrite = false := by
  induction cs with
  | nil => simp
  | cons c cs ih => cases c <;> simp [run_cons, Phase.acceptCall, Call.isSendHeader, Call.isWrite, ih]

/-- Calls that are all `end` are in order behind an `end`. -/
theorem inOrder_end_cons {data : Bytes} {cs : List Call} : InOrder (.end data :: cs) ↔
    ∀ c ∈ cs, c.isSendHeader = false ∧ c.isWrite = false := by
  rw [inOrder_cons]
  constructor
  · rintro ⟨h, -⟩ c hc
    exact ⟨(h c hc).1, (h c hc).2 rfl⟩
  · intro h
    constructor
    · intro c hc
      exact ⟨(h c hc).1, fun _ => (h c hc).2⟩
    · apply List.pairwise_of_forall_mem_list
      intro c _ d hd
      exact ⟨(h d hd).1, fun _ => (h d hd).2⟩

theorem acceptCall_started (cs : List Call) : (run Phase.acceptCall .started cs).isSome ↔
    (∀ c ∈ cs, c.isSendHeader = false) ∧ InOrder cs := by
  induction cs with
  | nil => simp [InOrder]
  | cons c cs ih =>
    cases c with
    | sendHeader status => simp [run_cons, Phase.acceptCall, Call.isSendHeader]
    | write data => simp [run_cons, Phase.acceptCall, ih, inOrder_cons, Call.isSendHeader, Call.isEnd]
    | «end» data =>
      simp only [run_cons, Phase.acceptCall, Option.bind_some, acceptCall_finished, inOrder_end_cons]
      constructor
      · intro h
        exact ⟨by simpa [Call.isSendHeader] using fun c hc => (h c hc).1, h⟩
      · rintro ⟨-, h⟩
        exact h

theorem acceptCall_idle (cs : List Call) : (run Phase.acceptCall .idle cs).isSome ↔ InOrder cs := by
  match cs with
  | [] => simp [InOrder]
  | .sendHeader status :: cs =>
    simp [run_cons, Phase.acceptCall, acceptCall_started, inOrder_cons, Call.isEnd]
  | .write data :: cs => simp [run_cons, Phase.acceptCall, acceptCall_started, inOrder_cons, Call.isEnd]
  | .end data :: cs =>
    simp only [run_cons, Phase.acceptCall, Option.bind_some, acceptCall_finished, inOrder_end_cons]

/-! ## The messages follow the calls -/

/-- The flags and the messages of a response in a phase. -/
structure InPhase (res : Response) (p : Phase) : Prop where
  headerSent : res.headerSent = true ↔ p ≠ .idle
  bodySent : res.bodySent = true ↔ p = .finished
  accepted : run Phase.accept .idle res.sent = some p

/-- What a call passes to `send`. -/
def emitted (res : Response) : Call → List Message
  | .sendHeader statusCode => [.start statusCode res.getHeaders]
  | .write data => (if res.headerSent then [] else [.start 200 res.getHeaders]) ++ [.body data true]
  | .end data =>
    if res.bodySent then []
    else (if res.headerSent then [] else [.start 200 res.getHeaders]) ++ [.body data false]

theorem call_sent (res : Response) (c : Call) : (res.call c).sent = res.sent ++ res.emitted c := by
  cases c with
  | sendHeader status => rfl
  | write data => cases h : res.headerSent <;> simp [call, write, emitted, ensureHeader, sendHeader, h]
  | «end» data =>
    cases h : res.headerSent <;> cases h' : res.bodySent <;>
      simp [call, «end», emitted, ensureHeader, sendHeader, h, h']

/-- What a call leaves in the two flags. -/
theorem call_flags (res : Response) (c : Call) :
    ((res.call c).headerSent = true ↔ res.headerSent = true ∨ res.bodySent = false ∨ c.isEnd = false) ∧
      ((res.call c).bodySent = true ↔ res.bodySent = true ∨ c.isEnd = true) := by
  cases c with
  | sendHeader status => simp [call, sendHeader, Call.isEnd]
  | write data => cases h : res.headerSent <;> simp [call, write, ensureHeader, sendHeader, Call.isEnd, h]
  | «end» data =>
    cases h : res.headerSent <;> cases h' : res.bodySent <;>
      simp [call, «end», ensureHeader, sendHeader, Call.isEnd, h, h']

/-- The messages of a call are legal in a phase exactly if the call is. -/
theorem accept_emitted {res : Response} {p : Phase} (h : res.InPhase p) (c : Call) :
    run Phase.accept p (res.emitted c) = p.acceptCall c := by
  have hh := h.headerSent
  have hb := h.bodySent
  cases c <;> cases p <;> simp_all [emitted, run_cons, Phase.accept, Phase.acceptCall]

theorem run_accept_call {res : Response} {p : Phase} (h : res.InPhase p) (c : Call) :
    run Phase.accept .idle (res.call c).sent = p.acceptCall c := by
  rw [call_sent, run_append, h.accepted, Option.bind_some, accept_emitted h]

/-- A call in order leads to its next phase. -/
theorem call_inPhase {res : Response} {p p' : Phase} (h : res.InPhase p) {c : Call} (hc : p.acceptCall c = some p') :
    (res.call c).InPhase p' := by
  refine ⟨?_, ?_, (run_accept_call h c).trans hc⟩
  · rw [(call_flags res c).1, h.headerSent, ← Bool.not_eq_true, h.bodySent]
    cases p <;> cases c <;> cases hc <;> simp [Call.isEnd]
  · rw [(call_flags res c).2, h.bodySent]
    cases p <;> cases c <;> cases hc <;> simp [Call.isEnd]

theorem sent_prefix_calls (res : Response) (cs : List Call) : res.sent <+: (res.calls cs).sent := by
  induction cs generalizing res with
  | nil => exact List.prefix_rfl
  | cons c cs ih => exact (call_sent res c ▸ List.prefix_append _ _).trans (ih (res.call c))

/-- The messages are legal as long as the calls are in order, and in the same phase. -/
theorem calls_accepted {res : Response} {p : Phase} (h : res.InPhase p) (cs : List Call) :
    run Phase.accept .idle (res.calls cs).sent = run Phase.acceptCall p cs := by
  induction cs generalizing res p with
  | nil => exact h.accepted
  | cons c cs ih =>
    rw [run_cons]
    cases hc : p.acceptCall c with
    | some p' => exact ih (call_inPhase h hc)
    | none =>
      -- what the call out of order sent stays in front of everything sent later
      obtain ⟨ms, hms⟩ := sent_prefix_calls (res.call c) cs
      show run Phase.accept .idle ((res.call c).calls cs).sent = none
      rw [← hms, run_append, run_accept_call h c, hc]
      rfl

/-- A response as `__init__` leaves it has sent nothing. -/
def Fresh (res : Response) : Prop := res.headerSent = false ∧ res.bodySent = false ∧ res.sent = []

theorem fresh_init {uuid4 : Nat → String} {request : Request} {drawn : Nat} {res : Response}
    (h : (init uuid4 request drawn).1 = some res) : res.Fresh := by
  simp only [init, Option.bind_eq_some_iff] at h
  obtain ⟨s, -, h⟩ := h
  simp only [setCookie, addHeader] at h
  split at h <;> cases h <;> exact ⟨rfl, rfl, rfl⟩

/-- A request that does not know its session id and has no cookie for it gets a response. -/
theorem init_of_no_cookie (uuid4 : Nat → String) (request : Request) (drawn : Nat)
    (hs : request.sessionIdStr = none) (hc : (request.getCookie (encode sessionIdKey)).1 = none) :
    (init uuid4 request drawn).1 = blank.setCookie sessionIdKey ("daliApi:session:" ++ uuid4 drawn) := by
  simp only [init, Request.readSessionIdStr, hs, Request.readSessionId, hc, decode_encode, Option.bind_some]

/-- The messages of a new response are a legal ASGI response prefix if and only if `send_header` is
called only as the very first call and `write` never after `end`. -/
theorem response_legal_iff (uuid4 : Nat → String) (request : Request) (drawn : Nat) (res : Response)
    (h : (init uuid4 request drawn).1 = some res) (cs : List Call) :
    LegalPrefix (res.calls cs).sent ↔ InOrder cs := by
  obtain ⟨hh, hb, hs⟩ := fresh_init h
  have hp : res.InPhase .idle := ⟨by simp [hh], by simp [hb], by simp [hs]⟩
  rw [← Phase.accept_idle, calls_accepted hp, acceptCall_idle]

/-- A request without headers. -/
def bareRequest : Request := .init ⟨"GET", "/", [], none⟩

/-- Headers, a chunk and the end, twice: a legal response. -/
theorem response_legal_iff_page : ∃ res, (init (fun _ => "0") bareRequest 0).1 = some res ∧
    LegalPrefix (res.calls [.sendHeader 200, .write (ascii "a"), .end (ascii "b"), .end (ascii "c")]).sent := by
  have h := init_of_no_cookie (fun _ => "0") bareRequest 0 rfl rfl
  exact ⟨_, h, (response_legal_iff _ bareRequest 0 _ h _).2 (by decide)⟩

/-- A `write` after `end` passes a message to `send` behind the last one. -/
theorem response_legal_fails : ∃ res, (init (fun _ => "0") bareRequest 0).1 = some res ∧
    ¬ LegalPrefix (res.calls [.end (ascii "a"), .write (ascii "b")]).sent := by
  have h := init_of_no_cookie (fun _ => "0") bareRequest 0 rfl rfl
  refine ⟨_, h, fun hl => ?_⟩
  have hlast := (List.pairwise_cons.1 (List.pairwise_cons.1 hl.nothingAfterLast).2).1 (.body (ascii "b") true) (by simp)
  cases hlast

end Response

end GoodGoodStudy.Dali
