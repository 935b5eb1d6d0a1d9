/-
`Request` of `dali/http/request.py`: the fields a request is built with and the properties that
compute and remember the cookie, the session id and the uri. A property that assigns to a field
returns the request it leaves behind.

The random source is a sequence of draws, `uuid4 n` being the hex text of the draw number `n`; a
property that draws returns the number of draws made so far.
-/
import GoodGoodStudy.Lib.Bytes
import GoodGoodStudy.Lib.Dict
import GoodGoodStudy.Lib.Search

namespace GoodGoodStudy.Dali

open GoodGoodStudy.Lib

/-- `config.SESSION_ID_KEY` -/
def sessionIdKey : String := "session_id"

/-- `str.encode` with `config.GLOBAL_CHARSET` -/
def encode (s : String) : Bytes := s.toUTF8.data.toList

/-- `bytes.decode` with `config.GLOBAL_CHARSET`, `none` for a `UnicodeDecodeError` -/
def decode (b : Bytes) : Option String := String.fromUTF8? ⟨b.toArray⟩

theorem decode_encode (s : String) : decode (encode s) = some s := by
  have h : (⟨(encode s).toArray⟩ : ByteArray) = s.toByteArray := by simp [encode]
  rw [decode, h, String.fromUTF8?, dif_pos s.isValidUTF8]
  rfl

theorem encode_of_decode {b : Bytes} {s : String} (h : decode b = some s) : encode s = b := by
  simp only [decode, String.fromUTF8?] at h
  split at h
  · cases h
    show b.toArray.toList = b
    rw [List.toList_toArray]
  · cases h

theorem encode_injective : Function.Injective encode := fun s t h => by
  rw [← Option.some_inj, ← decode_encode s, ← decode_encode t, h]

/-- The part of the ASGI `scope` that the program reads. -/
structure Scope where
  method : String
  path : String
  queryString : Bytes
  headers : Option (List (List Bytes))

/-- A value of a form: the bytes of a text field, or the object built for a file. -/
inductive FormValue where
  | text (content : Bytes)
  | file (filename content name : Bytes)
  deriving DecidableEq

structure Request where
  sessionIdStr : Option String
  method : String
  path : String
  queryString : Bytes
  headers : Dict Bytes (List Bytes)
  cookie : Option Bytes
  cookieMap : Dict Bytes Bytes
  contentType : Option Bytes
  body : Bytes
  sessionId : Bytes
  uri : Option String
  queryVars : Dict Bytes (List Bytes)
  bodyVars : Dict Bytes (List FormValue)

namespace Request

/-- `_parse_header`: only headers of length two count. -/
def parseHeader (rawHeaders : List (List Bytes)) : Dict Bytes (List Bytes) :=
  rawHeaders.foldl (fun headers header => match header with
    | [key, value] => headers.push key value
    | _ => headers) .empty

/-- `__init__` -/
def init (scope : Scope) : Request where
  sessionIdStr := none
  method := scope.method
  path := scope.path
  queryString := scope.queryString
  headers := parseHeader (scope.headers.getD [])
  cookie := some []
  cookieMap := .empty
  contentType := none
  body := []
  sessionId := []
  uri := none
  queryVars := .empty
  bodyVars := .empty

/-- `_get_first_value_of_array` -/
def getFirstValueOfArray {β : Type} (data : Dict Bytes (List β)) (key : Bytes) : Option β :=
  (data.get? key).bind List.head?

/-- `get_header` without a default: an empty value counts as none. -/
def getHeader (r : Request) (key : Bytes) : Option Bytes :=
  (getFirstValueOfArray r.headers key).filter (· ≠ [])

/-- A field that is unset or empty. -/
def Falsy (field : Option Bytes) : Prop := field = none ∨ field = some []

instance (field : Option Bytes) : Decidable (Falsy field) := inferInstanceAs (Decidable (_ ∨ _))

/-- The property `cookie`. -/
def readCookie (r : Request) : Option Bytes × Request :=
  let r := if Falsy r.cookie then { r with cookie := r.getHeader (ascii "cookie") } else r
  (r.cookie, r)

/-- The property `content_type`. -/
def readContentType (r : Request) : Option Bytes × Request :=
  let r := if Falsy r.contentType then { r with contentType := r.getHeader (ascii "content-type") } else r
  (r.contentType, r)

def addCookie (cookieMap : Dict Bytes Bytes) (token : Bytes) : Dict Bytes Bytes :=
  match token.splitOn 61 with
  | [k, v] => cookieMap.set k v
  | _ => cookieMap

/-- The tokens of a cookie header, added to the map. -/
def addCookies (r : Request) : Option Bytes → Request
  | none | some [] => r
  | some cookie => { r with cookieMap := (splitOnSub (ascii "; ") cookie).foldl addCookie r.cookieMap }

/-- The part of `get_cookie` that fills the map. -/
def fillCookieMap (r : Request) : Request := r.readCookie.2.addCookies r.readCookie.1

/-- `get_cookie` without a default. -/
def getCookie (r : Request) (key : Bytes) : Option Bytes × Request :=
  let r := if r.cookieMap.items = [] then r.fillCookieMap else r
  (r.cookieMap.get? key, r)

/-- The property `session_id`: the cookie, or a new id at every reading. -/
def readSessionId (uuid4 : Nat → String) (r : Request) (drawn : Nat) : Bytes × Request × Nat :=
  let (cookie, r) := r.getCookie (encode sessionIdKey)
  match cookie with
  | none | some [] =>
    let sessionIdStr := "daliApi:session:" ++ uuid4 drawn
    (encode sessionIdStr,
      { r with sessionIdStr := some sessionIdStr, sessionId := encode sessionIdStr }, drawn + 1)
  | some sessionId => (sessionId, { r with sessionId }, drawn)

/-- The property `session_id_str`; `none` is a cookie that is not UTF-8. -/
def readSessionIdStr (uuid4 : Nat → String) (r : Request) (drawn : Nat) : Option String × Request × Nat :=
  match r.sessionIdStr with
  | some s => (some s, r, drawn)
  | none =>
    let (sessionId, r, drawn) := r.readSessionId uuid4 drawn
    match decode sessionId with
    | some s => (some s, { r with sessionIdStr := some s }, drawn)
    | none => (none, r, drawn)

/-- The property `uri`; `none` is a query string that is not UTF-8. -/
def readUri (r : Request) : Option String × Request :=
  if r.uri = none ∨ r.uri = some "" then
    if r.queryString = [] then (some r.path, { r with uri := some r.path })
    else match decode r.queryString with
      | some query => (some (r.path ++ "?" ++ query), { r with uri := some (r.path ++ "?" ++ query) })
      | none => (none, { r with uri := some (r.path ++ "?") })
  else (r.uri, r)

def isMobile (r : Request) : Bool :=
  match r.getHeader (ascii "user-agent") with
  | none => false
  | some userAgent => (findSub (ascii "iPhone") userAgent).isSome || (findSub (ascii "Android") userAgent).isSome ||
      (findSub (ascii "iPod") userAgent).isSome

end Request

end GoodGoodStudy.Dali
