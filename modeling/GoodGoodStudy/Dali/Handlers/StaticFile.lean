/-
`handle_static_file_request` of `dali/handlers/static_file_handler.py` over a tree of directories
and files, and the exact requests that make it open a file outside `STATIC_FILES_ROOT`.

The path of a request is appended to the root as text. What the operating system makes of the
result is the walk of its segments from the application directory: first `static` glued to the
text in front of the first slash, then the rest.
-/
import GoodGoodStudy.Dali.AioFile
import GoodGoodStudy.Dali.Http.Response
import GoodGoodStudy.Lib.Path

namespace GoodGoodStudy.Dali

open GoodGoodStudy.Lib

/-! ## `timestamp_to_http_time` of `dali/utils/http_helper.py` -/

/-- Year, month and day of a day counted from 1970-01-01. -/
def civil (days : Int) : Int × Nat × Nat :=
  let era := (days + 719468) / 146097
  let dayOfEra := ((days + 719468) % 146097).toNat
  let yearOfEra := (dayOfEra - dayOfEra / 1460 + dayOfEra / 36524 - dayOfEra / 146096) / 365
  -- counted from the first of March
  let dayOfYear := dayOfEra - (365 * yearOfEra + yearOfEra / 4 - yearOfEra / 100)
  let month := (5 * dayOfYear + 2) / 153
  let year := yearOfEra + era * 400
  let day := dayOfYear - (153 * month + 2) / 5 + 1
  if month < 10 then (year, month + 3, day) else (year + 1, month - 9, day)

def twoDigits (n : Nat) : String := if n < 10 then "0" ++ toString n else toString n

/-- `'%a, %d %b %Y %H:%M:%S GMT'` of a time in seconds. -/
def timestampToHttpTime (timestamp : Int) : Bytes :=
  let days := timestamp / 86400
  let seconds := (timestamp % 86400).toNat
  let (year, month, day) := civil days
  let weekday := ["Sun", "Mon", "Tue", "Wed", "Thu", "Fri", "Sat"].getD ((days + 4) % 7).toNat ""
  let monthName := ["Jan", "Feb", "Mar", "Apr", "May", "Jun", "Jul", "Aug", "Sep", "Oct", "Nov", "Dec"].getD
    (month - 1) ""
  ascii (weekday ++ ", " ++ twoDigits day ++ " " ++ monthName ++ " " ++ toString year ++ " " ++
    twoDigits (seconds / 3600) ++ ":" ++ twoDigits (seconds / 60 % 60) ++ ":" ++ twoDigits (seconds % 60) ++ " GMT")

example : timestampToHttpTime 951782400 = ascii "Tue, 29 Feb 2000 00:00:00 GMT" := by decide

/-! ## The file tree -/

abbrev Name := List Char

/-- What is at a list of names from the root; times are in seconds. -/
abbrev FileTree := List Name → Option (Entry Int)

def segment : Name → Seg Name
  | [] => .here
  | ['.'] => .here
  | ['.', '.'] => .up
  | n => .name n

def segments (path : List Char) : List (Seg Name) := (path.splitOn '/').map segment

namespace FileTree

def isDir (fs : FileTree) (p : List Name) : Bool :=
  match fs p with
  | some (.dir _) => true
  | _ => false

/-- What an absolute path leads to, and where that is. -/
def lookup (fs : FileTree) (path : List Char) : Option (List Name × Entry Int) :=
  (Seg.walk fs.isDir (fun p => (fs p).isSome) [] (segments path)).bind fun p => (fs p).map fun e => (p, e)

end FileTree

/-- A name that stands for itself in a path. -/
def Proper (n : Name) : Prop := n ≠ [] ∧ n ≠ ['.'] ∧ n ≠ ['.', '.'] ∧ '/' ∉ n

/-- `config.SERVER_ROOT`, an absolute path in normal form. -/
structure ServerRoot where
  names : List Name
  proper : ∀ n ∈ names, Proper n

namespace ServerRoot

/-- `config.APP_ROOT` -/
def appRoot (root : ServerRoot) : List Name := root.names ++ ["app".toList]

/-- `config.STATIC_FILES_ROOT` -/
def staticFilesRoot (root : ServerRoot) : List Name := root.appRoot ++ ["static".toList]

end ServerRoot

/-- The text of an absolute path. -/
def renderPath (names : List Name) : List Char := names.flatMap fun n => '/' :: n

/-! ## The handler -/

def mimeTypeMap : List (String × Bytes) :=
  [(".txt", ascii "text/plain"), (".html", ascii "text/html"), (".json", ascii "application/json"),
    (".jpeg", ascii "image/jpeg"), (".jpg", ascii "image/jpeg"), (".png", ascii "image/png"),
    (".gif", ascii "image/gif"), (".mp3", ascii "audio/mpeg"), (".wav", ascii "audio/wav"),
    (".mp4", ascii "video/mp4"), (".mov", ascii "video/quicktime"), (".pdf", ascii "application/pdf"),
    (".js", ascii "application/javascript")]

def getMimeType (filePath : List Char) : Bytes :=
  if '.' ∈ filePath then
    -- the text from the last dot on
    let fileType := '.' :: (filePath.reverse.takeWhile (· ≠ '.')).reverse
    (mimeTypeMap.lookup (String.ofList fileType)).getD (ascii "text/plain")
  else ascii "text/plain"

/-- The value of the first `if-modified-since` header. -/
def ifModifiedSince : List (List Bytes) → Bytes
  | [] => []
  | (hk :: hv :: _) :: headers => if hk = ascii "if-modified-since" then hv else ifModifiedSince headers
  | _ :: headers => ifModifiedSince headers

/-- The `KeyError` of a scope without headers. -/
inductive KeyError where
  | headers

/-- What a request did: the file it opened, what it sent, and what it returned. -/
structure StaticOutcome where
  opened : Option (List Name)
  sent : List Message
  result : Except KeyError Bool

/-- The path that the handler builds. -/
def ServerRoot.filePath (root : ServerRoot) (path : String) : List Char :=
  renderPath root.staticFilesRoot ++ path.toList

/-- The answer for a file that was found. -/
def serveFile (filePath : List Char) (path : List Name) (fileContent : Bytes) (mtime : Int)
    (headers : Option (List (List Bytes))) : StaticOutcome :=
  let lastModify := timestampToHttpTime mtime
  let head := [(ascii "content-type", HeaderValue.bytes (getMimeType filePath)),
    (ascii "last-modified", .bytes lastModify)]
  match headers with
  | none => ⟨some path, [], .error .headers⟩
  | some headers =>
    if ifModifiedSince headers ≠ [] ∧ ifModifiedSince headers = lastModify then
      ⟨some path, [.start 304 head, .body [] false], .ok true⟩
    else ⟨some path, [.start 200 head, .body fileContent false], .ok true⟩

/-- `handle_static_file_request`, its reads of the file system seeing one tree. -/
def handleStaticFileRequest (fs : FileTree) (root : ServerRoot) (scope : Scope) : StaticOutcome :=
  if scope.method ≠ "GET" then ⟨none, [], .ok false⟩
  else
    let filePath := root.filePath scope.path
    match fs.lookup filePath with
    | some (path, .file fileContent mtime) => serveFile filePath path fileContent mtime scope.headers
    | _ => ⟨none, [], .ok false⟩

/-! ## What is opened -/

/-- The text `path` leads to a regular file. -/
def FileTree.FileAt (fs : FileTree) (path : List Char) (p : List Name) : Prop :=
  ∃ content mtime, fs.lookup path = some (p, .file content mtime)

theorem serveFile_opened (filePath : List Char) (path : List Name) (content : Bytes) (mtime : Int)
    (headers : Option (List (List Bytes))) : (serveFile filePath path content mtime headers).opened = some path := by
  unfold serveFile
  cases headers with
  | none => rfl
  | some headers => dsimp only; split <;> rfl

theorem opened_iff (fs : FileTree) (root : ServerRoot) (scope : Scope) (p : List Name) :
    (handleStaticFileRequest fs root scope).opened = some p ↔
      scope.method = "GET" ∧ fs.FileAt (root.filePath scope.path) p := by
  unfold handleStaticFileRequest FileTree.FileAt
  by_cases hm : scope.method = "GET"
  · rw [if_neg (not_not.2 hm)]
    dsimp only
    rcases fs.lookup (root.filePath scope.path) with - | ⟨q, ⟨content, t⟩ | t⟩
    · simp
    · rw [serveFile_opened]; simp [hm]
    · simp
  · simp [hm]

/-- A file is found where the segments of the path lead. -/
theorem fileAt_resolve {fs : FileTree} {path : List Char} {p : List Name} (h : fs.FileAt path p) :
    p = Seg.resolve [] (segments path) := by
  obtain ⟨content, mtime, h⟩ := h
  obtain ⟨q, hq, h⟩ := Option.bind_eq_some_iff.1 h
  obtain ⟨e, -, he⟩ := Option.map_eq_some_iff.1 h
  cases he
  exact Seg.walk_eq_resolve hq

theorem segment_of_proper {n : Name} (h : Proper n) : segment n = .name n := by
  obtain ⟨h₁, h₂, h₃, -⟩ := h
  unfold segment
  split <;> simp_all

/-- The text of some names and of a path below them splits at its slashes. -/
theorem splitOn_renderPath {names : List Name} (h : ∀ n ∈ names, Proper n) (l : List Char) :
    (renderPath names ++ '/' :: l).splitOn '/' = [] :: (names ++ l.splitOn '/') := by
  induction names with
  | nil => exact List.splitOn_append_cons_self_of_not_mem List.not_mem_nil l
  | cons n names ih =>
    have ih := ih fun m hm => h m (List.mem_cons_of_mem _ hm)
    have hn := (h n List.mem_cons_self).2.2.2
    obtain ⟨r, hr⟩ : ∃ r, renderPath names ++ '/' :: l = '/' :: r := by
      cases names with
      | nil => exact ⟨l, rfl⟩
      | cons m names => exact ⟨_, rfl⟩
    have hnil : ∀ r, ('/' :: r : List Char).splitOn '/' = [] :: r.splitOn '/' := fun r =>
      List.splitOn_append_cons_self_of_not_mem List.not_mem_nil r
    rw [hr, hnil, List.cons_inj_right] at ih
    show ('/' :: (n ++ renderPath names) ++ '/' :: l).splitOn '/' = _
    rw [List.cons_append, List.append_assoc, hr, hnil, List.splitOn_append_cons_self_of_not_mem hn, ih, List.cons_append]

/-- From the application directory, the request path is `static` glued to its first part. -/
theorem resolve_filePath (root : ServerRoot) (path : String) :
    Seg.resolve [] (segments (root.filePath path)) =
      Seg.resolve root.appRoot (segments ("static".toList ++ path.toList)) := by
  have happ : ∀ n ∈ root.appRoot, Proper n := by
    intro n hn
    rcases List.mem_append.1 hn with hn | hn
    · exact root.proper n hn
    · rw [List.mem_singleton.1 hn]; unfold Proper; decide
  have hpath : root.filePath path = renderPath root.appRoot ++ '/' :: ("static".toList ++ path.toList) := by
    simp [ServerRoot.filePath, ServerRoot.staticFilesRoot, renderPath]
  have hmap : root.appRoot.map segment = root.appRoot.map Seg.name :=
    List.map_congr_left fun n hn => segment_of_proper (happ n hn)
  -- the empty text in front of the first slash stays at the root
  rw [hpath, segments, splitOn_renderPath happ, List.map_cons, List.map_append, hmap]
  show Seg.resolve [] (root.appRoot.map Seg.name ++ segments _) = _
  rw [Seg.resolve_append, Seg.resolve_names, List.nil_append]

/-- In the normal form of the request path, seen from the application directory, the names go down
again the directories it went up, and then into `static`. -/
def Contained (root : ServerRoot) (path : String) : Prop :=
  let (ups, names) := Seg.normal (segments ("static".toList ++ path.toList))
  root.appRoot.drop (root.appRoot.length - ups) ++ ["static".toList] <+: names

instance (root : ServerRoot) (path : String) : Decidable (Contained root path) :=
  inferInstanceAs (Decidable (_ <+: _))

/-- What is opened lies under `STATIC_FILES_ROOT` if and only if the request is no GET, no regular
file is at the path built, or the request path goes down again what it goes up. -/
theorem static_file_contained_iff (fs : FileTree) (root : ServerRoot) (scope : Scope) :
    (∀ p, (handleStaticFileRequest fs root scope).opened = some p → root.staticFilesRoot <+: p) ↔
      scope.method ≠ "GET" ∨ (¬ ∃ p, fs.FileAt (root.filePath scope.path) p) ∨ Contained root scope.path := by
  have hunder := Seg.under_iff root.appRoot ["static".toList] (segments ("static".toList ++ scope.path.toList))
  have hroot : ∀ p, fs.FileAt (root.filePath scope.path) p →
      (root.staticFilesRoot <+: p ↔ Contained root scope.path) := by
    intro p hp
    rw [fileAt_resolve hp, resolve_filePath]
    exact hunder
  constructor
  · intro h
    by_cases hm : scope.method = "GET"
    · by_cases hf : ∃ p, fs.FileAt (root.filePath scope.path) p
      · obtain ⟨p, hp⟩ := hf
        exact .inr (.inr ((hroot p hp).1 (h p ((opened_iff fs root scope p).2 ⟨hm, hp⟩))))
      · exact .inr (.inl hf)
    · exact .inl hm
  · rintro h p hp
    obtain ⟨hm, hp⟩ := (opened_iff fs root scope p).1 hp
    rcases h with h | h | h
    · exact absurd hm h
    · exact absurd ⟨p, hp⟩ h
    · exact (hroot p hp).2 h

/-- A server in `/srv` with its `config.py`. -/
def srv : ServerRoot := ⟨["srv".toList], by unfold Proper; decide⟩

def srvTree : FileTree := fun p =>
  if p ∈ [[], ["srv".toList], srv.appRoot, srv.staticFilesRoot] then some (.dir 0)
  else if p = ["srv".toList, "config.py".toList] then some (.file (ascii "SERVER_NAME") 0)
  else none

/-- A request for `/../../config.py` opens `/srv/config.py`. -/
theorem static_file_contained_fails :
    (handleStaticFileRequest srvTree srv ⟨"GET", "/../../config.py", [], some []⟩).opened =
        some ["srv".toList, "config.py".toList] ∧
      ¬ srv.staticFilesRoot <+: ["srv".toList, "config.py".toList] := by decide

end GoodGoodStudy.Dali
