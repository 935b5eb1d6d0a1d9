/-
`dali/utils/aiofile.py`: the four file operations, each an await of its own. They see the file
system through `look`, what the world has at a path.
-/
import GoodGoodStudy.Lib.Bytes
import GoodGoodStudy.Lib.Coro

namespace GoodGoodStudy.Dali

open GoodGoodStudy.Lib

/-- What a path leads to. -/
inductive Entry (τ : Type) where
  | file (content : Bytes) (mtime : τ)
  | dir (mtime : τ)

/-- What `read_file` answers: the content, or the text of the error with that number. -/
inductive FileData where
  | content (b : Bytes)
  | errorReadingFile (errno : Nat) (filePath : String)
  deriving DecidableEq

/-- The exception of `os.path.getmtime`. -/
structure FileNotFoundError where
  filePath : String

namespace Entry

variable {τ : Type}

def isFile : Option (Entry τ) → Bool
  | some (file _ _) => true
  | _ => false

/-- Opening and reading a path. -/
def read (filePath : String) : Option (Entry τ) → FileData
  | some (file content _) => .content content
  | some (dir _) => .errorReadingFile 21 filePath
  | none => .errorReadingFile 2 filePath

def mtime : Option (Entry τ) → Option τ
  | some (file _ t) => some t
  | some (dir t) => some t
  | none => none

end Entry

namespace AioFile

variable {ε τ : Type} {χ : Type} (look : ε → String → Option (Entry τ))

def «exists» (filePath : String) : Coro ε χ Bool := .ask fun e => (look e filePath).isSome

def isFile (filePath : String) : Coro ε χ Bool := .ask fun e => Entry.isFile (look e filePath)

def readFile (filePath : String) : Coro ε χ FileData := .ask fun e => Entry.read filePath (look e filePath)

def getMtime (filePath : String) : Coro ε FileNotFoundError τ :=
  .askOr fun e => (Entry.mtime (look e filePath)).elim (.error ⟨filePath⟩) .ok

end AioFile

end GoodGoodStudy.Dali
