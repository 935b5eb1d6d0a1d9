/-
`HttpMessageParser.parse2request` of `internet/httpServer`, on the requests that a well-formed client
renders.

The request line, the header loop and the message share one reader. A header line is split at every
colon and only the second piece is kept, and the message is a new array of the announced length that
nothing fills. So a request is delivered exactly if its version is not empty, its header values are
trimmed, have no colon and do not contradict each other, and its body consists of NUL characters.
-/
import GoodGoodStudy.Java.Text
import GoodGoodStudy.Lib.Dict
import GoodGoodStudy.Lib.Bytes

namespace GoodGoodStudy.HttpServer

open GoodGoodStudy.Lib GoodGoodStudy.Java

/-! ## The parser -/

/-- `HttpMessageParser.Request`; a field that is not set is `null`. -/
structure Request where
  method : Option JString := none
  uri : Option JString := none
  version : Option JString := none
  headers : Option (Dict JString JString) := none
  message : Option JString := none

/-- `Content-Length` as the parser spells it. -/
def contentLength : JString := str "content-length"

section Parser

/-! `toLowerCase` of the default locale, `Character.digit` in base ten and the UTF-8 decoder of
`InputStreamReader` are Java's. -/
variable (toLowerCase : JString → JString) (digit : JChar → Option Nat) (decodeUtf8 : Bytes → JString)

/-- Parse the request line. Assertions are off by default, the array accesses are checked. -/
def decodeRequestLine (reader : JString) (request : Request) : Except Exc (Request × JString) :=
  match readLine reader with
  | (none, _) => .error .nullPointer
  | (some line, reader) => do
    let strs := split space line
    let method ← item strs 0
    let uri ← item strs 1
    let version ← item strs 2
    return ({ request with method, uri, version }, reader)

/-- The loop of `decodeRequestHeader`. -/
def readHeaders (headers : Dict JString JString) (reader : JString) :
    Except Exc (Dict JString JString × JString) :=
  match _ : readLine reader with
  | (none, _) => .error .nullPointer
  | (some line, rest) =>
    if line = [] then .ok (headers, rest)
    else do
      let kv := split colon line
      let name ← item kv 0
      let value ← item kv 1
      readHeaders (headers.set (toLowerCase (trim name)) (trim value)) rest
termination_by reader.length
decreasing_by exact readLine_length ‹_›

/-- Parse the headers. -/
def decodeRequestHeader (reader : JString) (request : Request) : Except Exc (Request × JString) := do
  let (headers, reader) ← readHeaders toLowerCase Dict.empty reader
  return ({ request with headers := some headers }, reader)

/-- The loop that reads while characters are ready, up to a NUL character. -/
def readReady : JString → JString × JString
  | [] => ([], [])
  | ch :: reader =>
    if ch = 0 then ([], reader)
    else
      let (message, reader) := readReady reader
      (ch :: message, reader)

/-- Parse the message. A positive length allocates the message and reads nothing. -/
def decodeRequestMessage (reader : JString) (request : Request) : Except Exc (Request × JString) :=
  match request.headers with
  | none => .error .nullPointer
  | some headers => do
    let contentLen ← parseInt digit ((headers.get? contentLength).getD (str "-1"))
    if 0 < contentLen then
      return ({ request with message := some (List.replicate contentLen.toNat 0) }, reader)
    else if contentLen = -1 then return (request, reader)
    else
      let (message, reader) := readReady reader
      return ({ request with message := some message }, reader)

/-- `parse2request`, on the bytes of the stream; the line that it prints is left out. -/
def parse2request (reqStream : Bytes) : Except Exc Request := do
  let (request, reader) ← decodeRequestLine (decodeUtf8 reqStream) {}
  let (request, reader) ← decodeRequestHeader toLowerCase reader request
  let (request, _) ← decodeRequestMessage digit reader request
  return request

end Parser

/-! ## What a client sends -/

/-- The key of a header in the map of the parser. -/
def headerKey (toLowerCase : JString → JString) (name : JString) : JString := toLowerCase (trim name)

/-- Text of the request line without blanks. -/
def Unbroken (s : JString) : Prop := space ∉ s ∧ InLine s

instance (s : JString) : Decidable (Unbroken s) := inferInstanceAs (Decidable (_ ∧ _))

/-- A well-formed request: the parts of the request line have no blanks, a header name has no colon,
names and values stay on their line, and `Content-Length` announces the length of the body. -/
structure ClientRequest (toLowerCase : JString → JString) where
  method : JString
  uri : JString
  version : JString
  headers : List (JString × JString)
  body : JString
  unbroken : Unbroken method ∧ Unbroken uri ∧ Unbroken version
  names : ∀ h ∈ headers, colon ∉ h.1 ∧ InLine h.1
  values : ∀ h ∈ headers, InLine h.2
  announced : ∃ h ∈ headers, headerKey toLowerCase h.1 = contentLength
  length : ∀ h ∈ headers, headerKey toLowerCase h.1 = contentLength →
    IsDecimal h.2 ∧ decimalValue h.2 = body.length

namespace ClientRequest

/-- `name: value`. -/
def renderHeader (h : JString × JString) : JString := h.1 ++ colon :: space :: h.2 ++ lineEnd

/-- The text on the wire. -/
def render {toLowerCase : JString → JString} (r : ClientRequest toLowerCase) : JString :=
  r.method ++ space :: (r.uri ++ space :: r.version) ++ lineEnd ++ (r.headers.flatMap renderHeader ++ (lineEnd ++ r.body))

/-- The parsed request is the one that was sent: a key of the map has a value exactly if a header with
this key has it. -/
def Describes {toLowerCase : JString → JString} (r : ClientRequest toLowerCase) (q : Request) : Prop :=
  q.method = some r.method ∧ q.uri = some r.uri ∧ q.version = some r.version ∧ q.message = some r.body ∧
    ∃ headers, q.headers = some headers ∧
      ∀ key value, headers.get? key = some value ↔ ∃ h ∈ r.headers, headerKey toLowerCase h.1 = key ∧ h.2 = value

end ClientRequest

/-! ## The request line -/

theorem ok_bind {α β : Type} (a : α) (f : α → Except Exc β) : (Except.ok a >>= f) = f a := rfl

theorem item_zero (s : JString) (strs : List JString) : item (s :: strs) 0 = .ok s := rfl

theorem item_succ (s : JString) (strs : List JString) (i : Nat) : item (s :: strs) (i + 1) = item strs i := rfl

/-- The pieces of the request line; an empty version is dropped, with the empty pieces before it. -/
theorem split_requestLine {method uri version : JString} (hm : space ∉ method) (hu : space ∉ uri)
    (hv : space ∉ version) :
    split space (method ++ space :: (uri ++ space :: version)) =
      [method, uri, version].rdropWhile List.isEmpty := by
  rw [split, if_pos (by simp), splitOnSub_two hm, splitOnSub_two hu, splitOnSub_one hv]

variable {toLowerCase : JString → JString} {digit : JChar → Option Nat} {decodeUtf8 : Bytes → JString}

/-- The request line is parsed unless the version is empty. -/
theorem decodeRequestLine_render (r : ClientRequest toLowerCase) (rest : JString) :
    decodeRequestLine (r.method ++ space :: (r.uri ++ space :: r.version) ++ lineEnd ++ rest) {} =
      if r.version = [] then .error .arrayIndexOutOfBounds
      else .ok ({ method := some r.method, uri := some r.uri, version := some r.version }, rest) := by
  obtain ⟨⟨hm, hmline⟩, ⟨hu, huline⟩, hv, hvline⟩ := r.unbroken
  have hline : InLine (r.method ++ space :: (r.uri ++ space :: r.version)) := by
    have hr : carriageReturn ≠ space := by decide
    have hn : newline ≠ space := by decide
    simp only [InLine, List.mem_append, List.mem_cons, not_or]
    exact ⟨⟨hmline.1, hr, huline.1, hr, hvline.1⟩, hmline.2, hn, huline.2, hn, hvline.2⟩
  rw [decodeRequestLine, readLine_lineEnd hline]
  simp only [split_requestLine hm hu hv]
  by_cases hempty : r.version = []
  · have hlen : ([r.method, r.uri, r.version].rdropWhile List.isEmpty).length ≤ 2 := by
      rw [show [r.method, r.uri, r.version] = [r.method, r.uri] ++ [r.version] from rfl,
        List.rdropWhile_concat_pos _ _ _ (by simpa using hempty)]
      exact (List.rdropWhile_prefix _ _).length_le
    rw [if_pos hempty]
    generalize [r.method, r.uri, r.version].rdropWhile List.isEmpty = strs at hlen
    -- whichever piece is missing first, the access to it throws
    rcases strs with - | ⟨method, - | ⟨uri, - | ⟨version, strs⟩⟩⟩
    · rfl
    · rfl
    · rfl
    · simp at hlen
  · rw [if_neg hempty, List.rdropWhile_eq_self_iff.2 (by simpa using hempty)]
    rfl

/-! ## The header loop -/

/-- What the loop puts into the map for a header. -/
def parsedHeader (toLowerCase : JString → JString) (h : JString × JString) : JString × JString :=
  (headerKey toLowerCase h.1, trim (h.2.takeWhile fun c => c ≠ colon))

/-- The empty line ends the loop. -/
theorem readHeaders_end (headers : Dict JString JString) (rest : JString) :
    readHeaders toLowerCase headers (lineEnd ++ rest) = .ok (headers, rest) := by
  have hread : readLine (lineEnd ++ rest) = (some [], rest) := rfl
  rw [readHeaders]
  split
  · rename_i h
    cases hread.symm.trans h
  · rename_i h
    cases hread.symm.trans h
    rw [if_pos rfl]

/-- One round of the loop. -/
theorem readHeaders_line {reader line rest name value : JString} (hread : readLine reader = (some line, rest))
    (hne : line ≠ []) (hname : item (split colon line) 0 = .ok name) (hvalue : item (split colon line) 1 = .ok value)
    (headers : Dict JString JString) :
    readHeaders toLowerCase headers reader =
      readHeaders toLowerCase (headers.set (toLowerCase (trim name)) (trim value)) rest := by
  rw [readHeaders]
  split
  · rename_i h
    cases hread.symm.trans h
  · rename_i h
    cases hread.symm.trans h
    rw [if_neg hne]
    simp only [hname, hvalue]
    rfl

/-- A header is put under its key, up to the first colon of its value. -/
theorem readHeaders_header {h : JString × JString} (hname : colon ∉ h.1 ∧ InLine h.1) (hvalue : InLine h.2)
    (headers : Dict JString JString) (rest : JString) :
    readHeaders toLowerCase headers (ClientRequest.renderHeader h ++ rest) =
      readHeaders toLowerCase (headers.set (parsedHeader toLowerCase h).1 (parsedHeader toLowerCase h).2) rest := by
  have hline : InLine (h.1 ++ colon :: space :: h.2) := by
    simp only [InLine, List.mem_append, List.mem_cons, not_or]
    exact ⟨⟨hname.2.1, by decide, by decide, hvalue.1⟩, hname.2.2, by decide, by decide, hvalue.2⟩
  have hpiece : (space :: h.2).takeWhile (fun c => c ≠ colon) = space :: h.2.takeWhile fun c => c ≠ colon :=
    List.takeWhile_cons_of_pos (by decide)
  obtain ⟨pieces, hsplit⟩ := split_two hname.1 (hpiece ▸ List.cons_ne_nil _ _)
  rw [hpiece] at hsplit
  rw [ClientRequest.renderHeader, readHeaders_line (readLine_lineEnd hline rest) (by simp)
    (hsplit ▸ item_zero _ _) (hsplit ▸ item_succ _ _ _), trim_space]
  rfl

/-- The loop sets the headers one after the other. -/
theorem readHeaders_render {hs : List (JString × JString)} (hnames : ∀ h ∈ hs, colon ∉ h.1 ∧ InLine h.1)
    (hvalues : ∀ h ∈ hs, InLine h.2) (headers : Dict JString JString) (rest : JString) :
    readHeaders toLowerCase headers (hs.flatMap ClientRequest.renderHeader ++ (lineEnd ++ rest)) =
      .ok (headers.setAll (hs.map (parsedHeader toLowerCase)), rest) := by
  induction hs generalizing headers with
  | nil => exact readHeaders_end headers rest
  | cons h hs ih =>
    rw [List.flatMap_cons, List.append_assoc,
      readHeaders_header (hnames h List.mem_cons_self) (hvalues h List.mem_cons_self),
      ih (fun h hh => hnames h (List.mem_cons_of_mem _ hh)) (fun h hh => hvalues h (List.mem_cons_of_mem _ hh))]
    rfl

/-- A value is kept exactly if it has no colon and is trimmed. -/
theorem parsedHeader_snd (toLowerCase : JString → JString) (h : JString × JString) :
    (parsedHeader toLowerCase h).2 = h.2 ↔ colon ∉ h.2 ∧ trim h.2 = h.2 := by
  have hwhole : colon ∉ h.2 → h.2.takeWhile (fun c => c ≠ colon) = h.2 := fun hc =>
    List.takeWhile_eq_self_iff.2 fun c hm => by simpa using ne_of_mem_of_not_mem hm hc
  constructor
  · intro heq
    have hc : colon ∉ h.2 := by
      intro hm
      rw [← heq] at hm
      simpa using List.mem_takeWhile_imp (mem_of_mem_trim hm)
    exact ⟨hc, by rw [parsedHeader, hwhole hc] at heq; exact heq⟩
  · rintro ⟨hc, htrim⟩
    rw [parsedHeader, hwhole hc]
    exact htrim

namespace ClientRequest

/-- The map that the header loop builds. -/
def parsedHeaders (r : ClientRequest toLowerCase) : Dict JString JString :=
  Dict.empty.setAll (r.headers.map (parsedHeader toLowerCase))

/-- A key of the map comes from a header. -/
theorem get?_parsedHeaders (r : ClientRequest toLowerCase) (key : JString) :
    (∃ h ∈ r.headers, headerKey toLowerCase h.1 = key ∧
        r.parsedHeaders.get? key = some (parsedHeader toLowerCase h).2) ∨
      ((∀ h ∈ r.headers, headerKey toLowerCase h.1 ≠ key) ∧ r.parsedHeaders.get? key = none) := by
  obtain ⟨v, hv, hget⟩ | ⟨hkey, hget⟩ :=
    Dict.get?_setAll Dict.empty (r.headers.map (parsedHeader toLowerCase)) key
  · obtain ⟨h, hh, heq⟩ := List.mem_map.1 hv
    cases heq
    exact .inl ⟨h, hh, rfl, hget⟩
  · refine .inr ⟨?_, hget⟩
    intro h hh heq
    apply hkey
    exact List.mem_map.2 ⟨_, List.mem_map.2 ⟨h, hh, rfl⟩, heq⟩

theorem decodeRequestHeader_render (r : ClientRequest toLowerCase) (request : Request) (rest : JString) :
    decodeRequestHeader toLowerCase (r.headers.flatMap renderHeader ++ (lineEnd ++ rest)) request =
      .ok ({ request with headers := some r.parsedHeaders }, rest) := by
  rw [decodeRequestHeader, readHeaders_render r.names r.values]
  rfl

/-- The announced length survives the header loop. -/
theorem get?_contentLength (r : ClientRequest toLowerCase) :
    ∃ v, r.parsedHeaders.get? contentLength = some v ∧ IsDecimal v ∧ decimalValue v = r.body.length := by
  obtain ⟨h, hh, hkey, hget⟩ | ⟨hno, -⟩ := r.get?_parsedHeaders contentLength
  · obtain ⟨hdecimal, hvalue⟩ := r.length h hh hkey
    have hkept := (parsedHeader_snd toLowerCase h).2 ⟨colon_not_mem_decimal hdecimal, trim_decimal hdecimal⟩
    rw [hkept] at hget
    exact ⟨h.2, hget, hdecimal, hvalue⟩
  · obtain ⟨h, hh, hkey⟩ := r.announced
    exact absurd hkey (hno h hh)

end ClientRequest

/-! ## The message -/

/-- The message has the announced length, but none of the characters of the body. -/
theorem decodeRequestMessage_render (hdigit : ReadsDecimal digit) (r : ClientRequest toLowerCase) (request : Request)
    (hheaders : request.headers = some r.parsedHeaders) :
    (decodeRequestMessage digit r.body request).map Prod.fst =
      if r.body.length ≤ maxInt then .ok { request with message := some (List.replicate r.body.length 0) }
      else .error .numberFormat := by
  obtain ⟨v, hget, hdecimal, hvalue⟩ := r.get?_contentLength
  simp only [decodeRequestMessage, hheaders, hget, Option.getD_some, parseInt_decimal hdigit hdecimal, hvalue]
  by_cases hfits : r.body.length ≤ maxInt
  · simp only [if_pos hfits]
    -- a length of zero reads what is left of the stream, and nothing is
    cases hbody : r.body with
    | nil => rfl
    | cons c body =>
      have hpos : (0 : Int) < ((c :: body).length : Int) := by
        rw [List.length_cons]
        omega
      rw [ok_bind, if_pos hpos]
      rfl
  · simp only [if_neg hfits]
    rfl

/-- What becomes of a rendered request. -/
theorem parse2request_render (hdigit : ReadsDecimal digit) (r : ClientRequest toLowerCase) {reqStream : Bytes}
    (hstream : decodeUtf8 reqStream = r.render) :
    parse2request toLowerCase digit decodeUtf8 reqStream =
      if r.version = [] then .error .arrayIndexOutOfBounds
      else if r.body.length ≤ maxInt then
        .ok ⟨some r.method, some r.uri, some r.version, some r.parsedHeaders, some (List.replicate r.body.length 0)⟩
      else .error .numberFormat := by
  rw [parse2request, hstream, ClientRequest.render, decodeRequestLine_render]
  by_cases hempty : r.version = []
  · simp only [if_pos hempty]
    rfl
  · simp only [if_neg hempty]
    rw [ok_bind, r.decodeRequestHeader_render, ok_bind]
    rw [← decodeRequestMessage_render hdigit r
      ⟨some r.method, some r.uri, some r.version, some r.parsedHeaders, none⟩ rfl]
    rcases decodeRequestMessage digit r.body
      ⟨some r.method, some r.uri, some r.version, some r.parsedHeaders, none⟩ with e | ⟨request, reader⟩ <;> rfl

/-- The map has exactly the sent values if and only if these are kept and headers with the same key agree. -/
theorem parsedHeaders_exact_iff (r : ClientRequest toLowerCase) :
    (∀ key value, r.parsedHeaders.get? key = some value ↔
        ∃ h ∈ r.headers, headerKey toLowerCase h.1 = key ∧ h.2 = value) ↔
      (∀ h ∈ r.headers, colon ∉ h.2 ∧ trim h.2 = h.2) ∧
        ∀ g ∈ r.headers, ∀ h ∈ r.headers, headerKey toLowerCase g.1 = headerKey toLowerCase h.1 → g.2 = h.2 := by
  constructor
  · intro hexact
    have hget : ∀ h ∈ r.headers, r.parsedHeaders.get? (headerKey toLowerCase h.1) = some h.2 := by
      intro h hh
      exact (hexact _ _).2 ⟨h, hh, rfl, rfl⟩
    have hagree : ∀ g ∈ r.headers, ∀ h ∈ r.headers,
        headerKey toLowerCase g.1 = headerKey toLowerCase h.1 → g.2 = h.2 := by
      intro g hg h hh hkey
      have hg := hget g hg
      rw [hkey, hget h hh] at hg
      exact (Option.some.inj hg).symm
    -- the map holds the value of the last header with the key, which agrees with this one
    refine ⟨?_, hagree⟩
    intro h hh
    obtain ⟨g, hg, hkey, hlast⟩ | ⟨hno, -⟩ := r.get?_parsedHeaders (headerKey toLowerCase h.1)
    · rw [hget h hh] at hlast
      have hvalue := hagree g hg h hh hkey
      rw [← hvalue]
      exact (parsedHeader_snd toLowerCase g).1 (hvalue.trans (Option.some.inj hlast)).symm
    · exact absurd rfl (hno h hh)
  · rintro ⟨hkept, hagree⟩ key value
    obtain ⟨g, hg, hkey, hlast⟩ | ⟨hno, hnone⟩ := r.get?_parsedHeaders key
    · rw [hlast, (parsedHeader_snd toLowerCase g).2 (hkept g hg), Option.some.injEq]
      constructor
      · exact fun hvalue => ⟨g, hg, hkey, hvalue⟩
      · rintro ⟨h, hh, hkey', rfl⟩
        exact hagree g hg h hh (hkey.trans hkey'.symm)
    · rw [hnone]
      constructor
      · rintro ⟨⟩
      · rintro ⟨h, hh, hkey, -⟩
        exact absurd hkey (hno h hh)

/-- A rendered request is delivered exactly if its version is not empty, its header values are trimmed
and without colons, headers with the same key agree, and its body is a run of NUL characters whose
length is an `int`. -/
theorem parse2request_delivers_iff (hdigit : ReadsDecimal digit) (r : ClientRequest toLowerCase) {reqStream : Bytes}
    (hstream : decodeUtf8 reqStream = r.render) :
    (∃ q, parse2request toLowerCase digit decodeUtf8 reqStream = .ok q ∧ r.Describes q) ↔
      r.version ≠ [] ∧ (∀ h ∈ r.headers, colon ∉ h.2 ∧ trim h.2 = h.2) ∧
        (∀ g ∈ r.headers, ∀ h ∈ r.headers, headerKey toLowerCase g.1 = headerKey toLowerCase h.1 → g.2 = h.2) ∧
        (∀ c ∈ r.body, c = 0) ∧ r.body.length ≤ maxInt := by
  rw [parse2request_render hdigit r hstream]
  constructor
  · rintro ⟨q, hq, -, -, -, hmessage, headers, hheaders, hexact⟩
    split at hq
    · cases hq
    · rename_i hversion
      split at hq
      · rename_i hfits
        cases hq
        cases hheaders
        obtain ⟨hkept, hagree⟩ := (parsedHeaders_exact_iff r).1 hexact
        exact ⟨hversion, hkept, hagree, (List.eq_replicate_iff.1 (Option.some.inj hmessage).symm).2, hfits⟩
      · cases hq
  · rintro ⟨hversion, hkept, hagree, hbody, hfits⟩
    rw [if_neg hversion, if_pos hfits]
    exact ⟨_, rfl, rfl, rfl, rfl, congrArg some (List.eq_replicate_iff.2 ⟨rfl, hbody⟩).symm, _, rfl,
      (parsedHeaders_exact_iff r).2 ⟨hkept, hagree⟩⟩

/-! ## Two requests -/

section Requests

/-- `toLowerCase` on ASCII text. -/
def asciiLower (s : JString) : JString := s.map fun c => if 65 ≤ c ∧ c ≤ 90 then c + 32 else c

/-- `Character.digit` on ASCII characters. -/
def asciiDigit (c : JChar) : Option Nat := if zero ≤ c ∧ c ≤ nine then some (c.toNat - zero.toNat) else none

/-- The decoder on ASCII bytes. -/
def asciiDecode (bytes : Bytes) : JString := bytes.map UInt8.toUInt16

theorem asciiDigit_readsDecimal : ReadsDecimal asciiDigit := fun _ hlow hhigh => if_pos ⟨hlow, hhigh⟩

/-- A request without a body. -/
def plainRequest : ClientRequest asciiLower where
  method := str "GET"
  uri := str "/"
  version := str "HTTP/1.1"
  headers := [(str "Host", str "localhost"), (str "Content-Length", str "0")]
  body := []
  unbroken := by decide
  names := by decide
  values := by decide
  announced := by decide
  length := by decide

theorem parse2request_delivers_iff_plain :
    ∃ q, parse2request asciiLower asciiDigit asciiDecode
      (ascii "GET / HTTP/1.1\r\nHost: localhost\r\nContent-Length: 0\r\n\r\n") = .ok q ∧ plainRequest.Describes q :=
  (parse2request_delivers_iff asciiDigit_readsDecimal plainRequest (by decide)).2
    ⟨by decide, by decide, by decide, List.forall_mem_nil _, Nat.zero_le _⟩

/-- A request to a port, with a body. -/
def loginRequest : ClientRequest asciiLower where
  method := str "POST"
  uri := str "/login"
  version := str "HTTP/1.1"
  headers := [(str "Host", str "localhost:8080"), (str "Content-Length", str "2")]
  body := str "hi"
  unbroken := by decide
  names := by decide
  values := by decide
  announced := by decide
  length := by decide

/-- The parser returns a request with the host `localhost` and a message of two NUL characters. -/
theorem parse2request_fails :
    ¬ ∃ q, parse2request asciiLower asciiDigit asciiDecode
      (ascii "POST /login HTTP/1.1\r\nHost: localhost:8080\r\nContent-Length: 2\r\n\r\nhi") = .ok q ∧
      loginRequest.Describes q := by
  rw [parse2request_render asciiDigit_readsDecimal loginRequest (by decide), if_neg (by decide), if_pos (by decide)]
  rintro ⟨q, hq, -, -, -, hmessage, -⟩
  cases hq
  exact absurd hmessage (by decide)

end Requests

end GoodGoodStudy.HttpServer
