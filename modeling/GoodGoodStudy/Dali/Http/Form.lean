/-
`Request.parse_form` of `dali/http/request.py`: the query string, the loop that receives the body,
and the four kinds of content.
-/
import GoodGoodStudy.Dali.Http.Request
import GoodGoodStudy.Dali.UrlHelper

namespace GoodGoodStudy.Dali

open GoodGoodStudy.Lib

/-- An `http.request` message; a key may be missing. -/
structure ReceiveMessage where
  body : Option Bytes
  moreBody : Option Bool

/-- The `JSONDecodeError` of `json.loads`. -/
structure JSONDecodeError where
  body : Bytes

namespace Request

/-- The loop over `receive`; `none` if it waits for a message that does not come. -/
def receiveBody (body : Bytes) : List ReceiveMessage → Option (Bytes × List ReceiveMessage)
  | [] => none
  | message :: messages =>
    let body := body ++ message.body.getD []
    if message.moreBody.getD false then receiveBody body messages else some (body, messages)

/-- The value of a part: without a file name its content, else an object, whose content is
overwritten by the content type that the head mentions. -/
def partValue (head content key : Bytes) : FormValue :=
  match search (ascii "filename=\"") (greedyUntil quote lf) head with
  | none | some [] => .text content
  | some fileName => match search (ascii "Content-Type: ") (restOfLine lf) head with
    | none => .file fileName content key
    | some contentType => .file fileName contentType key

/-- One piece of a multipart body; `none` ends the loop. -/
def addPart (bodyVars : Dict Bytes (List FormValue)) (bodyRes : Bytes) : Option (Dict Bytes (List FormValue)) :=
  (findSub (crlf ++ crlf) bodyRes).map fun splitIndex =>
    let head := bodyRes.take splitIndex
    let content := bodyRes.drop (splitIndex + 4)
    match search (ascii "Content-Disposition: form-data; name=\"") (lazyUntil quote lf) head with
    | none => bodyVars
    | some key => bodyVars.push key (partValue head content key)

def addParts (bodyVars : Dict Bytes (List FormValue)) : List Bytes → Dict Bytes (List FormValue)
  | [] => bodyVars
  | bodyRes :: bodyResults => match addPart bodyVars bodyRes with
    | none => bodyVars
    | some bodyVars => addParts bodyVars bodyResults

/-- The body of a `POST` request, by its content type. -/
def parseBody (jsonLoads : Bytes → Except JSONDecodeError Unit) (r : Request) (contentType : Bytes) :
    Except JSONDecodeError Unit × Request :=
  if ascii "application/x-www-form-urlencoded" <+: contentType then
    (.ok (), { r with bodyVars := (parseUrlPairs r.body).mapValues (List.map .text) })
  else if ascii "multipart/form-data" <+: contentType then
    match search (ascii "multipart/form-data; boundary=") (restOfLine lf) contentType with
    | none => (.ok (), r)
    | some boundary =>
      if r.body = [] then (.ok (), r)
      else (.ok (), { r with bodyVars := addParts r.bodyVars (splitOnSub (ascii "\r\n--" ++ boundary) r.body) })
  else if ascii "application/json" <+: contentType then (jsonLoads r.body, r)
  else (.ok (), r)

/-- The `POST` branch of `parse_form`: receive the body, then parse it. -/
def receiveForm (jsonLoads : Bytes → Except JSONDecodeError Unit) (r : Request) (messages : List ReceiveMessage) :
    Option (Except JSONDecodeError Unit × Request × List ReceiveMessage) := do
  let (body, messages) ← receiveBody r.body messages
  let (contentType, r) := { r with body }.readContentType
  match contentType with
  | none | some [] => return (.ok (), r, messages)
  | some contentType =>
    let (result, r) := r.parseBody jsonLoads contentType
    return (result, r, messages)

/-- `parse_form`; what it only logs is left out. -/
def parseForm (jsonLoads : Bytes → Except JSONDecodeError Unit) (r : Request) (messages : List ReceiveMessage) :
    Option (Except JSONDecodeError Unit × Request × List ReceiveMessage) :=
  let r := if r.queryString = [] then r else { r with queryVars := parseUrlPairs r.queryString }
  if r.method = "POST" then r.receiveForm jsonLoads messages else some (.ok (), r, messages)

/-! ## Receiving -/

/-- Messages that carry a body, cut anywhere, and end with the first that announces no more. -/
def Delivers (messages : List ReceiveMessage) (body : Bytes) : Prop :=
  ∃ first last, messages = first ++ [last] ∧ (∀ m ∈ first, m.moreBody = some true) ∧ last.moreBody ≠ some true ∧
    messages.flatMap (fun m => m.body.getD []) = body

theorem receiveBody_delivers {messages : List ReceiveMessage} {body : Bytes} (h : Delivers messages body)
    (start : Bytes) : receiveBody start messages = some (start ++ body, []) := by
  obtain ⟨first, last, rfl, hmore, hlast, rfl⟩ := h
  induction first generalizing start with
  | nil =>
    have hno : last.moreBody.getD false = false := by
      rcases hm : last.moreBody with - | b
      · rfl
      · cases b
        · rfl
        · exact absurd hm hlast
    simp [receiveBody, hno]
  | cons m first ih =>
    have hm := hmore m List.mem_cons_self
    simp only [List.cons_append, receiveBody, hm, Option.getD_some, if_true]
    rw [ih _ fun m hm => hmore m (List.mem_cons_of_mem _ hm)]
    simp

end Request

end GoodGoodStudy.Dali
