/-
`FileCacheManager` of `dali/cache/file_cache_manager.py` while files are written and deleted. The
content and the modification time of a file are read in two actions and stored as a pair.

If no file is written between the two reads of a call for it, every stored pair belongs together:
should the file ever have the stored time, it has the stored content. Once the disk stops changing,
a call then answers the content of a file, and answers none for a missing file that is not cached;
for a missing file that is cached it answers the old content.
-/
import GoodGoodStudy.Dali.AioFile
import GoodGoodStudy.Dali.Cache.Calls
import Mathlib.Logic.Function.Basic

namespace GoodGoodStudy.Dali

open GoodGoodStudy.Lib

/-- The disk, with the modification times that each path has had. -/
structure Disk (τ : Type) where
  files : String → Option (Entry τ)
  stamps : String → List τ

inductive DiskAction (τ : Type) where
  | write (filePath : String) (content : Bytes) (mtime : τ)
  | delete (filePath : String)
  deriving DecidableEq

variable {τ ι : Type}

/-- A write replaces the content and gives a time the path never had; a deletion removes a file. -/
def Disk.step [DecidableEq τ] (d : Disk τ) : DiskAction τ → Option (Disk τ)
  | .write filePath content mtime => match d.files filePath with
    | some (.dir _) => none
    | _ => if mtime ∈ d.stamps filePath then none
      else some {
        files := Function.update d.files filePath (some (.file content mtime))
        stamps := Function.update d.stamps filePath (mtime :: d.stamps filePath) }
  | .delete filePath => match d.files filePath with
    | some (.file _ _) => some { d with files := Function.update d.files filePath none }
    | _ => none

namespace FileCache

/-- A coroutine of the file cache. -/
abbrev FileCoro (τ ρ : Type) := Coro (Disk τ) FileNotFoundError ρ

/-- `wrap_data` from `get_mtime` on. -/
def stampStage (key : String) (content : FileData) : FileCoro τ (Option (CacheDataWrapper FileData τ)) := do
  let mtime ← AioFile.getMtime Disk.files key
  return some ⟨content, mtime⟩

/-- `wrap_data` from `read_file` on. -/
def readStage (key : String) : FileCoro τ (Option (CacheDataWrapper FileData τ)) := do
  let content ← AioFile.readFile Disk.files key
  stampStage key content

/-- `wrap_data` from `is_file` on. -/
def isFileStage (key : String) : FileCoro τ (Option (CacheDataWrapper FileData τ)) := do
  let regular ← AioFile.isFile Disk.files key
  if regular then readStage key else return none

def wrapData (key : String) : FileCoro τ (Option (CacheDataWrapper FileData τ)) := do
  let present ← AioFile.exists Disk.files key
  if present then isFileStage key else return none

/-! Each stage is an action and what follows it. -/

theorem wrapData_act (key : String) : (wrapData key : FileCoro τ _) =
    .act id fun d => if (d.files key).isSome then isFileStage key else .ret none := rfl

theorem isFileStage_act (key : String) : (isFileStage key : FileCoro τ _) =
    .act id fun d => if Entry.isFile (d.files key) then readStage key else .ret none := rfl

theorem readStage_act (key : String) : (readStage key : FileCoro τ _) =
    .act id fun d => stampStage key (Entry.read key (d.files key)) := rfl

theorem stampStage_act (key : String) (content : FileData) : (stampStage key content : FileCoro τ _) =
    .act id fun d => (Entry.mtime (d.files key)).elim (.raise ⟨key⟩) fun t => .ret (some ⟨content, t⟩) := by
  simp only [stampStage, AioFile.getMtime, Coro.askOr, Coro.act_bind]
  congr 1
  funext d
  cases Entry.mtime (d.files key) <;> rfl

variable [DecidableEq τ]

/-- `will_reload` from `get_mtime` on. -/
def compareStage (wrapper : CacheDataWrapper FileData τ) (key : String) : FileCoro τ Bool := do
  let mtime ← AioFile.getMtime Disk.files key
  return mtime ≠ wrapper.timestamp

/-- `will_reload` from `is_file` on. -/
def stillFileStage (wrapper : CacheDataWrapper FileData τ) (key : String) : FileCoro τ Bool := do
  let regular ← AioFile.isFile Disk.files key
  if regular then compareStage wrapper key else return false

def willReload (wrapper : CacheDataWrapper FileData τ) (key : String) : FileCoro τ Bool := do
  let present ← AioFile.exists Disk.files key
  if present then stillFileStage wrapper key else return false

theorem willReload_act (w : CacheDataWrapper FileData τ) (key : String) : willReload w key =
    .act id fun d => if (d.files key).isSome then stillFileStage w key else .ret false := rfl

theorem stillFileStage_act (w : CacheDataWrapper FileData τ) (key : String) : stillFileStage w key =
    .act id fun d => if Entry.isFile (d.files key) then compareStage w key else .ret false := rfl

theorem compareStage_act (w : CacheDataWrapper FileData τ) (key : String) : compareStage w key =
    .act id fun d => (Entry.mtime (d.files key)).elim (.raise ⟨key⟩) fun t => .ret (t ≠ w.timestamp) := by
  simp only [compareStage, AioFile.getMtime, Coro.askOr, Coro.act_bind]
  congr 1
  funext d
  cases Entry.mtime (d.files key) <;> rfl

end FileCache

open FileCache

/-- `FileCacheManager`, called without callbacks. -/
def fileCacheManager (τ : Type) [DecidableEq τ] :
    CacheClass String FileData τ (Disk τ) FileNotFoundError Unit Unit where
  wrap _ key := wrapData key
  will _ wrapper key := willReload wrapper key
  wrapData := ()
  willReload := ()

/-- The calls on the file cache and the disk. -/
abbrev FileSystem (τ ι : Type) := System String FileData τ (Disk τ) FileNotFoundError Unit Unit ι

abbrev FileLabel (τ ι : Type) := Label String Unit Unit ι (DiskAction τ)

abbrev FilePc (τ : Type) := Pc FileData τ (Disk τ) FileNotFoundError Unit

namespace FileCache

variable [DecidableEq τ] [DecidableEq ι]

def step : FileSystem τ ι → FileLabel τ ι → Option (FileSystem τ ι) := System.step (fileCacheManager τ) Disk.step

theorem readOnlyClass : System.ReadOnlyClass (fileCacheManager τ) where
  wrap _ key := by
    refine .bind (.ask _) fun present => ?_
    split
    · refine .bind (.ask _) fun regular => ?_
      split
      · exact .bind (.ask _) fun content => .bind (.askOr _) fun t => .ret _
      · exact .ret _
    · exact .ret _
  will _ w key := by
    refine .bind (.ask _) fun present => ?_
    split
    · refine .bind (.ask _) fun regular => ?_
      split
      · exact .bind (.askOr _) fun t => .ret _
      · exact .ret _
    · exact .ret _

/-! ## Contents and times that belong together -/

/-- The pair is stored content and a time the path has had; a file with that time has that content. -/
def Good (d : Disk τ) (key : String) (w : CacheDataWrapper FileData τ) : Prop :=
  w.timestamp ∈ d.stamps key ∧ ∀ content, d.files key = some (.file content w.timestamp) → w.data = .content content

/-- The stages of `wrap_data`. Behind `read_file`, a file there still has the content read. -/
inductive Wrapping (d : Disk τ) (key : String) : FileCoro τ (Option (CacheDataWrapper FileData τ)) → Prop where
  | «exists» : Wrapping d key (wrapData key)
  | isFile : Wrapping d key (isFileStage key)
  | read : Wrapping d key (readStage key)
  | stamp {data : FileData} (h : ∀ content t, d.files key = some (.file content t) → data = .content content) :
      Wrapping d key (stampStage key data)
  | absent : Wrapping d key (.ret none)
  | done {w : CacheDataWrapper FileData τ} (h : Good d key w) : Wrapping d key (.ret (some w))
  | raised (x : FileNotFoundError) : Wrapping d key (.raise x)

/-- The times of all paths are among those they have had. -/
def Stamped (d : Disk τ) : Prop := ∀ p t, Entry.mtime (d.files p) = some t → t ∈ d.stamps p

omit [DecidableEq τ] in
theorem wrapping_act {d : Disk τ} (hd : Stamped d) {key : String} {upd : Disk τ → Disk τ}
    {k : Disk τ → FileCoro τ (Option (CacheDataWrapper FileData τ))} (h : Wrapping d key (.act upd k)) :
    Wrapping d key (k d) := by
  generalize hco : Coro.act upd k = co at h
  cases h with
  | «exists» =>
    rw [wrapData_act] at hco; cases hco
    dsimp only
    split
    · exact .isFile
    · exact .absent
  | isFile =>
    rw [isFileStage_act] at hco; cases hco
    dsimp only
    split
    · exact .read
    · exact .absent
  | read =>
    -- what is read is what the file has now; a missing file or a directory gives the text of an error
    rw [readStage_act] at hco; cases hco
    exact .stamp fun content t hf => by rw [hf]; rfl
  | @stamp data hdata =>
    rw [stampStage_act] at hco; cases hco
    dsimp only
    cases hm : Entry.mtime (d.files key) with
    | none => exact .raised _
    | some t => exact .done ⟨hd key t hm, fun content hf => hdata content t hf⟩
  | absent => cases hco
  | done => cases hco
  | raised => cases hco

theorem disk_cases {d d' : Disk τ} {a : DiskAction τ} (h : d.step a = some d') :
    (∃ p content t, a = .write p content t ∧ t ∉ d.stamps p ∧
      d' = { files := Function.update d.files p (some (.file content t))
             stamps := Function.update d.stamps p (t :: d.stamps p) }) ∨
    ∃ p, a = .delete p ∧ d' = { d with files := Function.update d.files p none } := by
  cases a with
  | write p content t =>
    simp only [Disk.step] at h
    split at h
    · cases h
    · split at h
      · cases h
      · rename_i ht; cases h; exact .inl ⟨p, content, t, rfl, ht, rfl⟩
  | delete p =>
    simp only [Disk.step] at h
    split at h
    · cases h; exact .inr ⟨p, rfl, rfl⟩
    · cases h

theorem stamped_step {d d' : Disk τ} {a : DiskAction τ} (hd : Stamped d) (h : d.step a = some d') : Stamped d' := by
  obtain ⟨p, content, t, rfl, -, rfl⟩ | ⟨p, rfl, rfl⟩ := disk_cases h <;> intro q u hu <;>
    simp only [Function.update_apply] at hu ⊢ <;> split_ifs at hu ⊢
  · cases hu; exact List.mem_cons_self
  · exact hd q u hu
  · cases hu
  · exact hd q u hu

/-- A change of the disk keeps pairs good: a new file has a new time. -/
theorem good_step {d d' : Disk τ} {a : DiskAction τ} {key : String} {w : CacheDataWrapper FileData τ}
    (hw : Good d key w) (h : d.step a = some d') : Good d' key w := by
  obtain ⟨ht, hc⟩ := hw
  obtain ⟨p, content, t, rfl, hnew, rfl⟩ | ⟨p, rfl, rfl⟩ := disk_cases h
  · by_cases hp : key = p
    · subst hp
      refine ⟨by simp [ht], fun c hf => ?_⟩
      simp only [Function.update_self, Option.some_inj, Entry.file.injEq] at hf
      exact absurd (hf.2 ▸ ht) hnew
    · exact ⟨by simpa [Function.update_of_ne hp] using ht, fun c hf => hc c (by simpa [Function.update_of_ne hp] using hf)⟩
  · by_cases hp : key = p
    · subst hp
      exact ⟨ht, fun c hf => by simp at hf⟩
    · exact ⟨ht, fun c hf => hc c (by simpa [Function.update_of_ne hp] using hf)⟩

/-- So does a change of the disk with the stages, if it is no write between the two reads. -/
theorem wrapping_step {d d' : Disk τ} {a : DiskAction τ} {key : String}
    {co : FileCoro τ (Option (CacheDataWrapper FileData τ))} (hco : Wrapping d key co) (h : d.step a = some d')
    (hquiet : ∀ content t, a = .write key content t → ∀ data, co ≠ stampStage key data) : Wrapping d' key co := by
  cases hco with
  | «exists» => exact .exists
  | isFile => exact .isFile
  | read => exact .read
  | absent => exact .absent
  | raised x => exact .raised x
  | done hw => exact .done (good_step hw h)
  | @stamp data hdata =>
    -- only a write of this path could put another content there
    refine .stamp fun c u hf => ?_
    obtain ⟨p, content, t, rfl, hnew, rfl⟩ | ⟨p, rfl, rfl⟩ := disk_cases h
    · by_cases hp : key = p
      · subst hp; exact absurd rfl (hquiet content t rfl data)
      · exact hdata c u (by simpa [Function.update_of_ne hp] using hf)
    · by_cases hp : key = p
      · subst hp; simp at hf
      · exact hdata c u (by simpa [Function.update_of_ne hp] using hf)

/-- The entries of the cache, and the pairs its calls are about to store, belong together. -/
structure Paired (s : FileSystem τ ι) : Prop where
  stamped : Stamped s.world
  entries : ∀ p w, s.manager.cacheMap.get? p = some w → Good s.world p w
  calls : ∀ i c, s.calls i = some c → ∀ cb co, c.pc = .wrapData cb co → Wrapping s.world c.key co
  reads : System.CallsRead s

/-- No file is written while a call for it is between its two reads. -/
def QuietWrite (s : FileSystem τ ι) : FileLabel τ ι → Prop
  | .world (.write p _ _) =>
    ∀ i c, s.calls i = some c → c.key = p → ∀ cb data, c.pc ≠ .wrapData cb (stampStage p data)
  | _ => True

variable {s s' : FileSystem τ ι}

omit [DecidableEq τ] [DecidableEq ι] in
theorem paired_init {d : Disk τ} (hd : Stamped d) : Paired (System.init d : FileSystem τ ι) where
  stamped := hd
  entries p w h := by cases h
  calls i c h := by cases h
  reads i c h := by cases h

theorem paired_begin (hp : Paired s) {i : ι} {key : String} {w g : Option Unit}
    (h : step s (.begin i key w g) = some s') : Paired s' := by
  have hreads := System.callsRead_step readOnlyClass hp.reads h
  obtain ⟨-, rfl⟩ := System.step_begin h
  refine ⟨hp.stamped, fun p w hw => hp.entries p w (by simpa using hw), fun j c hc cb co hpc => ?_, hreads⟩
  simp only [Function.update_apply] at hc
  split at hc
  · cases hc
    simp only [System.getData_pc] at hpc
    split at hpc
    · cases hpc
    · cases hpc; exact .exists
  · exact hp.calls j c hc cb co hpc

/-- What a resumption stores is good, and what it awaits is a stage. -/
theorem paired_resume (hp : Paired s) {i : ι} (h : step s (.resume i) = some s') : Paired s' := by
  have hreads := System.callsRead_step readOnlyClass hp.reads h
  have hworld := System.world_step readOnlyClass hp.reads h (fun _ => by simp)
  obtain ⟨c, m, pc, e, hc, hr, rfl⟩ := System.step_resume h
  obtain rfl : e = s.world := hworld
  suffices hnew : (∀ p w, m.cacheMap.get? p = some w → Good s.world p w) ∧
      ∀ cb co, pc = .wrapData cb co → Wrapping s.world c.key co by
    refine ⟨hp.stamped, hnew.1, fun j d hd cb co hpc => ?_, hreads⟩
    simp only [System.proceed, Function.update_apply] at hd
    split at hd
    · cases hd; exact hnew.2 cb co hpc
    · exact hp.calls j d hd cb co hpc
  obtain ⟨w, upd, k, hpc, rfl, rfl, -⟩ | ⟨w, hpc, hm, -⟩ | ⟨w, hpc, rfl, rfl, -⟩ | ⟨cb, upd, k, hpc, rfl, rfl, -⟩ |
    ⟨cb, w, hpc, hm, -⟩ | ⟨x, rfl, rfl, -⟩ := System.resume_cases hr
  · exact ⟨hp.entries, fun _ _ h => by cases h⟩
  · cases hm; exact ⟨hp.entries, fun _ _ h => by cases h; exact .exists⟩
  · exact ⟨hp.entries, fun _ _ h => by cases h⟩
  · exact ⟨hp.entries, fun _ _ h => by cases h; exact wrapping_act hp.stamped (hp.calls i c hc cb _ hpc)⟩
  · cases w with
    | none => cases hm; exact ⟨hp.entries, fun _ _ h => by cases h⟩
    | some w =>
      cases hm
      refine ⟨?_, fun _ _ h => by cases h⟩
      intro p w' hw'
      simp only [Dict.get?_set] at hw'
      split at hw'
      · rename_i hpk; cases hw'; subst hpk
        cases hp.calls i c hc cb _ hpc with
        | done hgood => exact hgood
      · exact hp.entries p w' hw'
  · exact ⟨hp.entries, fun _ _ h => by cases h⟩

theorem paired_world (hp : Paired s) {a : DiskAction τ} (hq : QuietWrite s (.world a))
    (h : step s (.world a) = some s') : Paired s' := by
  have hreads := System.callsRead_step readOnlyClass hp.reads h
  obtain ⟨d, hd, rfl⟩ := System.step_world h
  refine ⟨stamped_step hp.stamped hd, fun p w hw => good_step (hp.entries p w hw) hd, fun i c hc cb co hpc => ?_, hreads⟩
  refine wrapping_step (hp.calls i c hc cb co hpc) hd ?_
  rintro content t rfl data rfl
  exact hq i c hc rfl cb data hpc

/-- In every run from an empty cache in which no file is written while a call for it is between its
two reads, all pairs belong together. -/
theorem paired_run {d : Disk τ} (hd : Stamped d) {as : List (FileLabel τ ι)}
    (hq : StepsOk step QuietWrite (System.init d) as) (h : run step (System.init d) as = some s) : Paired s := by
  refine run_invariant (I := Paired) (fun t a t' ht hok hs => ?_) (paired_init hd) hq h
  cases a with
  | begin i key w g => exact paired_begin ht hs
  | resume i => exact paired_resume ht hs
  | world a => exact paired_world ht hok hs

/-! ## A call on a disk that has stopped changing -/

/-- The current content of a path, if it is a file. -/
def current (d : Disk τ) (p : String) : Option FileData :=
  match d.files p with
  | some (.file content _) => some (.content content)
  | _ => none

/-- What a call answers that found `cached` under its key. -/
def answer (d : Disk τ) (p : String) (cached : Option (CacheDataWrapper FileData τ)) : Option FileData :=
  if Entry.isFile (d.files p) then current d p else cached.map CacheDataWrapper.data

omit [DecidableEq τ] in
theorem isFile_iff {d : Disk τ} {p : String} :
    Entry.isFile (d.files p) = true ↔ ∃ content t, d.files p = some (.file content t) := by
  rcases d.files p with - | ⟨content, t⟩ | t <;> simp [Entry.isFile]

omit [DecidableEq τ] in
/-- The answer is the current content if the path is a file or was not cached, and only then. -/
theorem answer_eq_current {d : Disk τ} {p : String} {cached : Option (CacheDataWrapper FileData τ)} :
    answer d p cached = current d p ↔ Entry.isFile (d.files p) = true ∨ cached = none := by
  unfold answer current
  rcases hf : d.files p with - | ⟨content, t⟩ | t <;> cases cached <;> simp [Entry.isFile]

omit [DecidableEq τ] in
theorem answer_of_file {d : Disk τ} {p : String} {content : Bytes} {t : τ} (hf : d.files p = some (.file content t))
    (cached : Option (CacheDataWrapper FileData τ)) : answer d p cached = some (.content content) := by
  simp [answer, current, hf, Entry.isFile]

omit [DecidableEq τ] in
theorem answer_of_no_file {d : Disk τ} {p : String} (hf : Entry.isFile (d.files p) = false)
    (cached : Option (CacheDataWrapper FileData τ)) : answer d p cached = cached.map CacheDataWrapper.data := by
  simp [answer, hf]

/-- The stages of `wrap_data` on the fixed disk, with the number of actions to come. -/
inductive Reading (d : Disk τ) (p : String) : FileCoro τ (Option (CacheDataWrapper FileData τ)) → Nat → Prop where
  | «exists» : Reading d p (wrapData p) 4
  | isFile : Reading d p (isFileStage p) 3
  | read (hf : Entry.isFile (d.files p) = true) : Reading d p (readStage p) 2
  | stamp {content : Bytes} {t : τ} (hf : d.files p = some (.file content t)) :
      Reading d p (stampStage p (.content content)) 1
  | done {content : Bytes} {t : τ} (hf : d.files p = some (.file content t)) :
      Reading d p (.ret (some ⟨.content content, t⟩)) 0
  | absent (hf : Entry.isFile (d.files p) = false) : Reading d p (.ret none) 0

/-- The stages of `will_reload` on the fixed disk. -/
inductive Checking (d : Disk τ) (p : String) (w : CacheDataWrapper FileData τ) : FileCoro τ Bool → Nat → Prop where
  | «exists» : Checking d p w (willReload w p) 3
  | isFile : Checking d p w (stillFileStage w p) 2
  | compare (hf : Entry.isFile (d.files p) = true) : Checking d p w (compareStage w p) 1
  | done {content : Bytes} {t : τ} (hf : d.files p = some (.file content t)) :
      Checking d p w (.ret (t ≠ w.timestamp)) 0
  | absent (hf : Entry.isFile (d.files p) = false) : Checking d p w (.ret false) 0

omit [DecidableEq τ] in
theorem isFile_of_not_isSome {d : Disk τ} {p : String} (h : ¬ (d.files p).isSome = true) :
    Entry.isFile (d.files p) = false := by
  rw [Bool.not_eq_true, Option.isSome_eq_false_iff, Option.isNone_iff_eq_none] at h
  rw [h]; rfl

omit [DecidableEq τ] in
theorem reading_act {d : Disk τ} {p : String} {upd : Disk τ → Disk τ}
    {k : Disk τ → FileCoro τ (Option (CacheDataWrapper FileData τ))} {n : Nat} (h : Reading d p (.act upd k) n) :
    ∃ n' < n, Reading d p (k d) n' := by
  generalize hco : Coro.act upd k = co at h
  cases h with
  | «exists» =>
    rw [wrapData_act] at hco; cases hco
    dsimp only
    split
    · exact ⟨3, by omega, .isFile⟩
    · exact ⟨0, by omega, .absent (isFile_of_not_isSome ‹_›)⟩
  | isFile =>
    rw [isFileStage_act] at hco; cases hco
    dsimp only
    split
    · exact ⟨2, by omega, .read ‹_›⟩
    · exact ⟨0, by omega, .absent (by simpa using ‹¬ Entry.isFile (d.files p) = true›)⟩
  | read hf =>
    rw [readStage_act] at hco; cases hco
    obtain ⟨content, t, hf⟩ := isFile_iff.1 hf
    refine ⟨1, by omega, ?_⟩
    dsimp only
    rw [hf]
    exact .stamp hf
  | stamp hf =>
    rw [stampStage_act] at hco; cases hco
    refine ⟨0, by omega, ?_⟩
    dsimp only
    rw [hf]
    exact .done hf
  | done => cases hco
  | absent => cases hco

theorem checking_act {d : Disk τ} {p : String} {w : CacheDataWrapper FileData τ} {upd : Disk τ → Disk τ}
    {k : Disk τ → FileCoro τ Bool} {n : Nat} (h : Checking d p w (.act upd k) n) :
    ∃ n' < n, Checking d p w (k d) n' := by
  generalize hco : Coro.act upd k = co at h
  cases h with
  | «exists» =>
    rw [willReload_act] at hco; cases hco
    dsimp only
    split
    · exact ⟨2, by omega, .isFile⟩
    · exact ⟨0, by omega, .absent (isFile_of_not_isSome ‹_›)⟩
  | isFile =>
    rw [stillFileStage_act] at hco; cases hco
    dsimp only
    split
    · exact ⟨1, by omega, .compare ‹_›⟩
    · exact ⟨0, by omega, .absent (by simpa using ‹¬ Entry.isFile (d.files p) = true›)⟩
  | compare hf =>
    rw [compareStage_act] at hco; cases hco
    obtain ⟨content, t, hf⟩ := isFile_iff.1 hf
    refine ⟨0, by omega, ?_⟩
    dsimp only
    rw [hf]
    exact .done hf
  | done => cases hco
  | absent => cases hco

omit [DecidableEq τ] in
/-- A finished `wrap_data` read the file, or found none. -/
theorem reading_ret {d : Disk τ} {p : String} {r : Option (CacheDataWrapper FileData τ)} {n : Nat}
    (h : Reading d p (.ret r) n) :
    (∃ content t, d.files p = some (.file content t) ∧ r = some ⟨.content content, t⟩) ∨
      Entry.isFile (d.files p) = false ∧ r = none := by
  generalize hco : (Coro.ret r : FileCoro τ _) = co at h
  cases h with
  | «exists» => rw [wrapData_act] at hco; cases hco
  | isFile => rw [isFileStage_act] at hco; cases hco
  | read => rw [readStage_act] at hco; cases hco
  | stamp => rw [stampStage_act] at hco; cases hco
  | @done content t hf => cases hco; exact .inl ⟨content, t, hf, rfl⟩
  | absent hf => cases hco; exact .inr ⟨hf, rfl⟩

/-- A finished `will_reload` compared the times, or found no file. -/
theorem checking_ret {d : Disk τ} {p : String} {w : CacheDataWrapper FileData τ} {b : Bool} {n : Nat}
    (h : Checking d p w (.ret b) n) :
    (∃ content t, d.files p = some (.file content t) ∧ b = decide (t ≠ w.timestamp)) ∨
      Entry.isFile (d.files p) = false ∧ b = false := by
  generalize hco : (Coro.ret b : FileCoro τ _) = co at h
  cases h with
  | «exists» => rw [willReload_act] at hco; cases hco
  | isFile => rw [stillFileStage_act] at hco; cases hco
  | compare => rw [compareStage_act] at hco; cases hco
  | @done content t hf => cases hco; exact .inl ⟨content, t, hf, rfl⟩
  | absent hf => cases hco; exact .inr ⟨hf, rfl⟩

omit [DecidableEq τ] in
theorem reading_not_raise {d : Disk τ} {p : String} {x : FileNotFoundError} {n : Nat} :
    ¬ Reading d p (.raise x) n := by
  generalize hco : (Coro.raise x : FileCoro τ _) = co
  rintro (_ | _ | _ | _ | _ | _)
  · rw [wrapData_act] at hco; cases hco
  · rw [isFileStage_act] at hco; cases hco
  · rw [readStage_act] at hco; cases hco
  · rw [stampStage_act] at hco; cases hco
  · cases hco
  · cases hco

theorem checking_not_raise {d : Disk τ} {p : String} {w : CacheDataWrapper FileData τ} {x : FileNotFoundError}
    {n : Nat} : ¬ Checking d p w (.raise x) n := by
  generalize hco : (Coro.raise x : FileCoro τ _) = co
  rintro (_ | _ | _ | _ | _)
  · rw [willReload_act] at hco; cases hco
  · rw [stillFileStage_act] at hco; cases hco
  · rw [compareStage_act] at hco; cases hco
  · cases hco
  · cases hco

/-- A call for `p` that found `cached`, with a bound on the resumptions to come. -/
inductive Fresh (d : Disk τ) (p : String) (cached : Option (CacheDataWrapper FileData τ)) : FilePc τ → Nat → Prop where
  | checking {w : CacheDataWrapper FileData τ} {co : FileCoro τ Bool} {n : Nat} (hc : cached = some w)
      (hw : Good d p w) (h : Checking d p w co n) : Fresh d p cached (.willReload w co) (n + 6)
  | reading {co : FileCoro τ (Option (CacheDataWrapper FileData τ))} {n : Nat}
      (hc : cached = none ∨ Entry.isFile (d.files p) = true) (h : Reading d p co n) :
      Fresh d p cached (.wrapData () co) (n + 1)
  | returned : Fresh d p cached (.returned (answer d p cached)) 0

/-- A call begins fresh if its entry is good. -/
theorem fresh_begin {m : BaseCacheManager String FileData τ Unit Unit} {d : Disk τ} {p : String}
    (hgood : ∀ w, m.cacheMap.get? p = some w → Good d p w) :
    ∃ n ≤ 9, Fresh d p (m.cacheMap.get? p) (m.getData (fileCacheManager τ) p none none).2 n := by
  rw [System.getData_pc]
  cases hget : m.cacheMap.get? p with
  | none => exact ⟨5, by omega, .reading (.inl rfl) .exists⟩
  | some w => exact ⟨9, by omega, .checking rfl (hgood w hget) .exists⟩

/-- What a call answers whose `will_reload` says that its entry is up to date. -/
theorem answer_of_checked {d : Disk τ} {p : String} {w : CacheDataWrapper FileData τ} {n : Nat} (hw : Good d p w)
    (h : Checking d p w (.ret false) n) : answer d p (some w) = some w.data := by
  obtain ⟨content, t, hf, hb⟩ | ⟨hf, -⟩ := checking_ret h
  · obtain rfl : t = w.timestamp := by simpa using hb
    rw [answer_of_file hf, hw.2 content hf]
  · rw [answer_of_no_file hf, Option.map_some]

/-- A resumption of a fresh call leaves it fresh, with fewer to come. -/
theorem fresh_resume {m m' : BaseCacheManager String FileData τ Unit Unit} {d e : Disk τ} {p : String}
    {cached : Option (CacheDataWrapper FileData τ)} {pc pc' : FilePc τ} {n : Nat} (h : Fresh d p cached pc n)
    (hr : m.resume (fileCacheManager τ) p d pc = some (m', pc', e)) : ∃ n' < n, Fresh d p cached pc' n' := by
  cases h with
  | @checking w co n hc hw hco =>
    match co with
    | .act upd k =>
      obtain ⟨n', hn, hk⟩ := checking_act hco
      cases hr
      exact ⟨n' + 6, by omega, .checking hc hw hk⟩
    | .ret b =>
      cases b with
      | true =>
        -- the times differ, so the file is there, and its `wrap_data` begins
        cases hr
        refine ⟨5, by omega, .reading (.inr ?_) .exists⟩
        obtain ⟨content, t, hf, -⟩ | ⟨-, hb⟩ := checking_ret hco
        · exact isFile_iff.2 ⟨content, t, hf⟩
        · cases hb
      | false =>
        cases hr
        subst hc
        exact ⟨0, by omega, answer_of_checked hw hco ▸ .returned⟩
    | .raise x => exact absurd hco checking_not_raise
  | @reading co n hc hco =>
    match co with
    | .act upd k =>
      obtain ⟨n', hn, hk⟩ := reading_act hco
      cases hr
      exact ⟨n' + 1, by omega, .reading hc hk⟩
    | .ret r =>
      obtain ⟨content, t, hf, rfl⟩ | ⟨hf, rfl⟩ := reading_ret hco
      · cases hr
        exact ⟨0, by omega, answer_of_file hf cached ▸ .returned⟩
      · cases hr
        -- an entry would have been kept: without a file `will_reload` answers false
        obtain rfl : cached = none := by simpa [hf] using hc
        have hans : answer d p none = none := answer_of_no_file hf none
        exact ⟨0, by omega, hans ▸ .returned⟩
    | .raise x => exact absurd hco reading_not_raise
  | returned => cases hr

/-- A fresh call that has not returned can be resumed. -/
theorem fresh_progress (m : BaseCacheManager String FileData τ Unit Unit) {d : Disk τ} {p : String}
    {cached : Option (CacheDataWrapper FileData τ)} {pc : FilePc τ} {n : Nat} (h : Fresh d p cached pc n) :
    (m.resume (fileCacheManager τ) p d pc).isSome ∨ pc = .returned (answer d p cached) := by
  cases h with
  | @checking w co n hc hw hco => left; cases co <;> rfl
  | @reading co n hc hco => left; cases co <;> rfl
  | returned => exact .inr rfl

/-- A fresh call in a system whose disk has stopped changing. -/
structure Serving (d : Disk τ) (i : ι) (p : String) (cached : Option (CacheDataWrapper FileData τ)) (n : Nat)
    (s : FileSystem τ ι) : Prop where
  world : s.world = d
  reads : System.CallsRead s
  call : ∃ c, s.calls i = some c ∧ c.key = p ∧ Fresh d p cached c.pc n

theorem serving_step {d : Disk τ} {i : ι} {p : String} {cached : Option (CacheDataWrapper FileData τ)} {n : Nat}
    (hs : Serving d i p cached n s) {a : FileLabel τ ι} (ha : ∀ b, a ≠ .world b) (h : step s a = some s') :
    ∃ n', Serving d i p cached n' s' ∧ n' + (if a = .resume i then 1 else 0) ≤ n := by
  have hreads := System.callsRead_step readOnlyClass hs.reads h
  have hworld := (System.world_step readOnlyClass hs.reads h ha).trans hs.world
  obtain ⟨c, hc, hkey, hfresh⟩ := hs.call
  cases a with
  | begin j key w g =>
    obtain ⟨hj, rfl⟩ := System.step_begin h
    have hij : i ≠ j := by rintro rfl; rw [hj] at hc; cases hc
    exact ⟨n, ⟨hworld, hreads, c, by simpa [Function.update_of_ne hij] using hc, hkey, hfresh⟩, by simp⟩
  | resume j =>
    obtain ⟨c', m, pc, e, hc', hr, rfl⟩ := System.step_resume h
    by_cases hij : i = j
    · subst hij
      obtain rfl : c = c' := Option.some.inj (hc.symm.trans hc')
      rw [hkey, hs.world] at hr
      obtain ⟨n', hn, hf⟩ := fresh_resume hfresh hr
      refine ⟨n', ⟨hworld, hreads, _, Function.update_self .., hkey, hf⟩, ?_⟩
      rw [if_pos rfl]; omega
    · refine ⟨n, ⟨hworld, hreads, c, by simpa [System.proceed, Function.update_of_ne hij] using hc, hkey, hfresh⟩, ?_⟩
      rw [if_neg (by simpa using fun h => hij h.symm)]; omega
  | world b => exact absurd rfl (ha b)

theorem serving_run {d : Disk τ} {i : ι} {p : String} {cached : Option (CacheDataWrapper FileData τ)} :
    ∀ {as : List (FileLabel τ ι)} {n : Nat} {s : FileSystem τ ι}, Serving d i p cached n s →
      (∀ a ∈ as, ∀ b, a ≠ .world b) → run step s as = some s' →
      ∃ n', Serving d i p cached n' s' ∧ n' + as.count (.resume i) ≤ n
  | [], n, s, hs, _, h => by cases h; exact ⟨n, hs, Nat.le_refl n⟩
  | a :: as, n, s, hs, ha, h => by
    obtain ⟨s₁, h₁, h⟩ := run_cons_some.1 h
    obtain ⟨n₁, hs₁, hn₁⟩ := serving_step hs (ha a List.mem_cons_self) h₁
    obtain ⟨n', hs', hn'⟩ := serving_run hs₁ (fun a h => ha a (List.mem_cons_of_mem _ h)) h
    refine ⟨n', hs', ?_⟩
    rw [List.count_cons]
    simp only [beq_iff_eq]
    omega

/-- A disk with one file. -/
def oneFile : Disk Nat where
  files p := if p = "a.txt" then some (.file (ascii "old") 1) else none
  stamps p := if p = "a.txt" then [1] else []

theorem stamped_oneFile : Stamped oneFile := by
  intro p t h
  simp only [oneFile] at h ⊢
  split_ifs at h ⊢
  · cases h; exact List.mem_singleton_self 1
  · cases h

abbrev OneFileSystem := FileSystem Nat Nat

/-- What a call has returned. -/
def resultOf : FilePc Nat → Option (Option FileData)
  | .returned r => some r
  | _ => none

/-- The file is written while a call is between its two reads. -/
def torn : List (FileLabel Nat Nat) :=
  [.begin 0 "a.txt" none none, .resume 0, .resume 0, .resume 0, .world (.write "a.txt" (ascii "new") 2), .resume 0,
    .resume 0]

/-- A later call. -/
def later : List (FileLabel Nat Nat) := .begin 1 "a.txt" none none :: List.replicate 4 (.resume 1)

end FileCache

end GoodGoodStudy.Dali
