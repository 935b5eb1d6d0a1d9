/-
A future and its callbacks: the operations in any order, each against the whole history before it. The first operation
that completes the future decides its outcome for good; each callback that is registered and not removed before then is
handed to the event loop once, in the order of registration, and one that is registered later at once.
-/
import Mathlib.Data.List.Induction
import Mathlib.Data.List.TakeWhile
import GoodGoodStudy.Lib.Run

namespace GoodGoodStudy.AioFuture

open GoodGoodStudy.Lib

/-! ## The class -/

inductive Status
  | pending
  | cancelled
  | finished
  deriving DecidableEq, Repr

/-- What is given to `set_exception`: an instance, or a type, of which an instance is made. -/
inductive ExceptionArg (ε : Type)
  | ofInstance (e : ε)
  | ofType (made : ε)

def ExceptionArg.get {ε : Type} : ExceptionArg ε → ε
  | .ofInstance e => e
  | .ofType made => made

/-- Functions `φ`, contexts `γ`, results `ν` and exceptions `ε`. -/
structure Future (φ γ ν ε : Type) where
  status : Status
  result : Option ν
  exception : Option ε
  callbacks : List (φ × γ)
  logTraceback : Bool
  /-- The calls of `call_soon`, in their order. -/
  calls : List (φ × Option γ)

variable {φ γ ν ε : Type}

def init : Future φ γ ν ε := ⟨.pending, none, none, [], false, []⟩

/-- The methods; `add_done_callback` with the context that is the current one. -/
inductive Op (φ γ ν ε : Type)
  | addDoneCallback (fn : φ) (context : Option γ) (current : γ)
  | removeDoneCallback (fn : φ)
  | cancel
  | setResult (result : ν)
  | setException (exception : ExceptionArg ε)
  | result
  | exception
  | done
  | cancelled

/-- What a method returns or raises. -/
inductive Answer (ν ε : Type)
  | none
  | bool (b : Bool)
  | count (n : ℕ)
  | value (v : Option ν)
  | exception (e : Option ε)
  | raises (e : ε)
  | cancelledError
  | invalidStateError
  | typeError

/-- `__schedule_callbacks` -/
def scheduleCallbacks (f : Future φ γ ν ε) : Future φ γ ν ε :=
  { f with callbacks := [], calls := f.calls ++ f.callbacks.map fun c => (c.1, some c.2) }

variable [DecidableEq φ] (isStopIteration : ε → Bool)

def step (f : Future φ γ ν ε) : Op φ γ ν ε → Future φ γ ν ε × Answer ν ε
  | .addDoneCallback fn context current =>
    if f.status ≠ .pending then ({ f with calls := f.calls ++ [(fn, context)] }, .none)
    else ({ f with callbacks := f.callbacks ++ [(fn, context.getD current)] }, .none)
  | .removeDoneCallback fn =>
    let filtered := f.callbacks.filter fun c => c.1 ≠ fn
    let removedCount := f.callbacks.length - filtered.length
    (if removedCount ≠ 0 then { f with callbacks := filtered } else f, .count removedCount)
  | .cancel =>
    let f := { f with logTraceback := false }
    if f.status ≠ .pending then (f, .bool false)
    else (scheduleCallbacks { f with status := .cancelled }, .bool true)
  | .setResult result =>
    if f.status ≠ .pending then (f, .invalidStateError)
    else (scheduleCallbacks { f with result := some result, status := .finished }, .none)
  | .setException exception =>
    if f.status ≠ .pending then (f, .invalidStateError)
    else if isStopIteration exception.get then (f, .typeError)
    else
      ({ scheduleCallbacks { f with exception := some exception.get, status := .finished } with logTraceback := true },
        .none)
  | .result =>
    match f.status with
    | .cancelled => (f, .cancelledError)
    | .pending => (f, .invalidStateError)
    | .finished =>
      ({ f with logTraceback := false },
        match f.exception with
        | some e => .raises e
        | none => .value f.result)
  | .exception =>
    match f.status with
    | .cancelled => (f, .cancelledError)
    | .pending => (f, .invalidStateError)
    | .finished => ({ f with logTraceback := false }, .exception f.exception)
  | .done => (f, .bool (f.status ≠ .pending))
  | .cancelled => (f, .bool (f.status = .cancelled))

/-! ## What the history says -/

inductive Outcome (ν ε : Type)
  | cancelled
  | result (v : ν)
  | exception (e : ε)

def Outcome.isException {ν ε : Type} : Outcome ν ε → Bool
  | .exception _ => true
  | _ => false

/-- The outcome that the operation gives to a future that has none. -/
def outcome : Op φ γ ν ε → Option (Outcome ν ε)
  | .cancel => some .cancelled
  | .setResult v => some (.result v)
  | .setException e => if isStopIteration e.get then none else some (.exception e.get)
  | _ => none

/-- The outcome of the first operation that gives one. -/
def completed (h : List (Op φ γ ν ε)) : Option (Outcome ν ε) := h.findSome? (outcome isStopIteration)

/-- The operations before that one, and those behind it. -/
def before (h : List (Op φ γ ν ε)) : List (Op φ γ ν ε) := h.takeWhile fun op => (outcome isStopIteration op).isNone

def after (h : List (Op φ γ ν ε)) : List (Op φ γ ν ε) :=
  (h.dropWhile fun op => (outcome isStopIteration op).isNone).tail

def Op.removes (fn : φ) : Op φ γ ν ε → Bool
  | .removeDoneCallback fn' => fn = fn'
  | _ => false

/-- The registrations that are not removed afterwards. -/
def survivors : List (Op φ γ ν ε) → List (φ × γ)
  | [] => []
  | .addDoneCallback fn context current :: ops =>
    if ops.any (Op.removes fn) then survivors ops else (fn, context.getD current) :: survivors ops
  | _ :: ops => survivors ops

def Op.added : Op φ γ ν ε → Option (φ × Option γ)
  | .addDoneCallback fn context _ => some (fn, context)
  | _ => none

/-- The calls of `call_soon`: nothing before there is an outcome, then what has been registered and not removed, then
every further registration. -/
def scheduled (h : List (Op φ γ ν ε)) : List (φ × Option γ) :=
  match completed isStopIteration h with
  | none => []
  | some _ =>
    (survivors (before isStopIteration h)).map (fun c => (c.1, some c.2)) ++
      (after isStopIteration h).filterMap Op.added

def Op.retrieves : Op φ γ ν ε → Bool
  | .cancel => true
  | .result => true
  | .exception => true
  | _ => false

/-- An exception that nobody has asked for. -/
def unretrieved (h : List (Op φ γ ν ε)) : Bool :=
  match completed isStopIteration h with
  | some o => o.isException && !(after isStopIteration h).any Op.retrieves
  | none => false

def answer (h : List (Op φ γ ν ε)) : Op φ γ ν ε → Answer ν ε
  | .addDoneCallback _ _ _ => .none
  | .removeDoneCallback fn =>
    match completed isStopIteration h with
    | none => .count ((survivors h).countP fun c => c.1 = fn)
    | some _ => .count 0
  | .cancel => .bool (completed isStopIteration h).isNone
  | .setResult _ => if (completed isStopIteration h).isNone then .none else .invalidStateError
  | .setException e =>
    if (completed isStopIteration h).isSome then .invalidStateError
    else if isStopIteration e.get then .typeError else .none
  | .result =>
    match completed isStopIteration h with
    | none => .invalidStateError
    | some .cancelled => .cancelledError
    | some (.result v) => .value (some v)
    | some (.exception e) => .raises e
  | .exception =>
    match completed isStopIteration h with
    | none => .invalidStateError
    | some .cancelled => .cancelledError
    | some (.result _) => .exception none
    | some (.exception e) => .exception (some e)
  | .done => .bool (completed isStopIteration h).isSome
  | .cancelled =>
    match completed isStopIteration h with
    | some .cancelled => .bool true
    | _ => .bool false

/-! ## One more operation -/

section Snoc

variable {isStopIteration} {h : List (Op φ γ ν ε)} {op : Op φ γ ν ε}

omit [DecidableEq φ] in
theorem isNone_of_completed (hnone : completed isStopIteration h = none) :
    ∀ op ∈ h, (outcome isStopIteration op).isNone = true := fun op hop => by
  rw [List.findSome?_eq_none_iff.1 hnone op hop]
  rfl

omit [DecidableEq φ] in
theorem completed_snoc :
    completed isStopIteration (h ++ [op]) = (completed isStopIteration h).or (outcome isStopIteration op) := by
  unfold completed
  rw [List.findSome?_append, List.findSome?_cons]
  cases outcome isStopIteration op <;> rfl

omit [DecidableEq φ] in
/-- The operation that completes the future. -/
theorem split_completing {o : Outcome ν ε} (hnone : completed isStopIteration h = none)
    (hop : outcome isStopIteration op = some o) :
    before isStopIteration (h ++ [op]) = h ∧ after isStopIteration (h ++ [op]) = [] := by
  have hall := isNone_of_completed hnone
  unfold before after
  constructor
  · rw [List.takeWhile_append_of_pos hall, List.takeWhile_cons, hop]
    simp
  · rw [List.dropWhile_append_of_pos hall, List.dropWhile_cons, hop]
    simp

omit [DecidableEq φ] in
/-- An operation on a future that is done. -/
theorem split_done {o : Outcome ν ε} (hsome : completed isStopIteration h = some o) :
    before isStopIteration (h ++ [op]) = before isStopIteration h ∧
      after isStopIteration (h ++ [op]) = after isStopIteration h ++ [op] := by
  obtain ⟨pre, op', post, rfl, hop', hpre⟩ := List.findSome?_eq_some_iff.1 hsome
  have hall : ∀ op ∈ pre, (outcome isStopIteration op).isNone = true := fun op hop => by
    rw [hpre op hop]
    rfl
  have hcut : ∀ tail : List (Op φ γ ν ε),
      before isStopIteration (pre ++ op' :: tail) = pre ∧ after isStopIteration (pre ++ op' :: tail) = tail := by
    intro tail
    unfold before after
    rw [List.takeWhile_append_of_pos hall, List.dropWhile_append_of_pos hall, List.takeWhile_cons, List.dropWhile_cons,
      hop']
    simp
  rw [List.append_assoc, List.cons_append, (hcut _).1, (hcut _).2, (hcut _).1, (hcut _).2]
  exact ⟨rfl, rfl⟩

/-! ### The registrations that are left -/

theorem survivors_snoc_add (fn : φ) (context : Option γ) (current : γ) :
    survivors (h ++ [.addDoneCallback fn context current]) = survivors h ++ [(fn, context.getD current)] := by
  induction h with
  | nil => simp [survivors]
  | cons op h ih =>
    cases op with
    | addDoneCallback fn' context' current' =>
      by_cases hany : h.any (Op.removes fn') <;> simp [survivors, ih, hany, Op.removes]
    | _ => simp [survivors, ih]

theorem survivors_snoc_remove (fn : φ) :
    survivors (h ++ [.removeDoneCallback fn]) = (survivors h).filter fun c => c.1 ≠ fn := by
  induction h with
  | nil => simp [survivors]
  | cons op h ih =>
    cases op with
    | addDoneCallback fn' context' current' =>
      rw [List.cons_append, survivors, survivors, List.any_append, ih]
      cases h.any (Op.removes fn')
      · by_cases hfn : fn' = fn <;> simp [hfn, Op.removes]
      · simp
    | _ => simp [survivors, ih]

/-- The operations that neither register nor remove. -/
def Op.keepsCallbacks : Op φ γ ν ε → Bool
  | .addDoneCallback _ _ _ => false
  | .removeDoneCallback _ => false
  | _ => true

theorem survivors_snoc_of_keeps (hop : op.keepsCallbacks) : survivors (h ++ [op]) = survivors h := by
  induction h with
  | nil => cases op <;> first | rfl | cases hop
  | cons op' h ih =>
    cases op' with
    | addDoneCallback fn' context' current' =>
      have hremoves : op.removes fn' = false := by cases op <;> first | rfl | cases hop
      by_cases hany : h.any (Op.removes fn') <;> simp [survivors, ih, hany, hremoves]
    | _ => simp [survivors, ih]

/-! ### What is scheduled -/

theorem scheduled_of_none (hnone : completed isStopIteration h = none) : scheduled isStopIteration h = [] := by
  rw [scheduled, hnone]

theorem scheduled_completing {o : Outcome ν ε} (hnone : completed isStopIteration h = none)
    (hop : outcome isStopIteration op = some o) :
    scheduled isStopIteration (h ++ [op]) = (survivors h).map fun c => (c.1, some c.2) := by
  obtain ⟨hbefore, hafter⟩ := split_completing hnone hop
  rw [scheduled, completed_snoc, hnone, hop, hbefore, hafter]
  exact List.append_nil _

theorem scheduled_done {o : Outcome ν ε} (hsome : completed isStopIteration h = some o) :
    scheduled isStopIteration (h ++ [op]) = scheduled isStopIteration h ++ op.added.toList := by
  obtain ⟨hbefore, hafter⟩ : before isStopIteration (h ++ [op]) = before isStopIteration h ∧
      after isStopIteration (h ++ [op]) = after isStopIteration h ++ [op] := split_done hsome
  rw [scheduled, scheduled, completed_snoc, hsome, hbefore, hafter, Option.some_or, List.filterMap_append,
    List.append_assoc]
  cases op <;> rfl

/-! ### What is still to be asked for -/

omit [DecidableEq φ] in
theorem unretrieved_of_none (hnone : completed isStopIteration h = none) : unretrieved isStopIteration h = false := by
  rw [unretrieved, hnone]

omit [DecidableEq φ] in
theorem unretrieved_completing {o : Outcome ν ε} (hnone : completed isStopIteration h = none)
    (hop : outcome isStopIteration op = some o) :
    unretrieved isStopIteration (h ++ [op]) = o.isException := by
  rw [unretrieved, completed_snoc, hnone, hop, (split_completing hnone hop).2]
  exact Bool.and_true _

omit [DecidableEq φ] in
theorem unretrieved_done {o : Outcome ν ε} (hsome : completed isStopIteration h = some o) :
    unretrieved isStopIteration (h ++ [op]) = (unretrieved isStopIteration h && !op.retrieves) := by
  rw [unretrieved, unretrieved, completed_snoc, hsome, (split_done hsome).2, Option.some_or, List.any_append]
  simp [Bool.and_assoc]

end Snoc

/-! ## The future and its history -/

/-- What the fields are once there is an outcome, or none yet. -/
def Fields (h : List (Op φ γ ν ε)) (f : Future φ γ ν ε) : Option (Outcome ν ε) → Prop
  | none => f.status = .pending ∧ f.callbacks = survivors h ∧ f.result = none ∧ f.exception = none
  | some .cancelled => f.status = .cancelled ∧ f.callbacks = []
  | some (.result v) => f.status = .finished ∧ f.callbacks = [] ∧ f.result = some v ∧ f.exception = none
  | some (.exception e) => f.status = .finished ∧ f.callbacks = [] ∧ f.exception = some e

/-- The future after the operations `h`. -/
structure Agrees (isStopIteration : ε → Bool) (h : List (Op φ γ ν ε)) (f : Future φ γ ν ε) : Prop where
  fields : Fields h f (completed isStopIteration h)
  calls : f.calls = scheduled isStopIteration h
  logTraceback : f.logTraceback = unretrieved isStopIteration h

section Step

variable {isStopIteration} {h : List (Op φ γ ν ε)} {f : Future φ γ ν ε}

/-- The test of the count does not matter: nothing is filtered out where it is zero. -/
theorem step_remove (fn : φ) :
    step isStopIteration f (.removeDoneCallback fn) =
      ({ f with callbacks := f.callbacks.filter fun c => c.1 ≠ fn },
        .count (f.callbacks.countP fun c => c.1 = fn)) := by
  have hcount : f.callbacks.length - (f.callbacks.filter fun c => c.1 ≠ fn).length =
      f.callbacks.countP fun c => c.1 = fn := by
    rw [List.length_eq_countP_add_countP (fun c => decide (c.1 = fn)), ← List.countP_eq_length_filter]
    simp
  rw [step, hcount]
  by_cases hzero : f.callbacks.countP (fun c => c.1 = fn) = 0
  · have hsame : f.callbacks.filter (fun c => c.1 ≠ fn) = f.callbacks := by
      apply List.filter_sublist.eq_of_length_le
      omega
    rw [if_neg (not_not.2 hzero), hsame]
  · rw [if_pos hzero]

/-- An operation that leaves a pending future pending. -/
theorem agrees_stays {f' : Future φ γ ν ε} {op : Op φ γ ν ε} (hnone : completed isStopIteration h = none)
    (hop : outcome isStopIteration op = none) (hfields : Fields (h ++ [op]) f' none) (hcalls : f'.calls = [])
    (hlog : f'.logTraceback = false) : Agrees isStopIteration (h ++ [op]) f' := by
  have hstill : completed isStopIteration (h ++ [op]) = none := by rw [completed_snoc, hnone, hop]; rfl
  constructor
  · rw [hstill]
    exact hfields
  · rw [hcalls, scheduled_of_none hstill]
  · rw [hlog, unretrieved_of_none hstill]

/-- An operation that completes it. -/
theorem agrees_completes {f' : Future φ γ ν ε} {op : Op φ γ ν ε} {o : Outcome ν ε}
    (hnone : completed isStopIteration h = none) (hop : outcome isStopIteration op = some o)
    (hfields : Fields (h ++ [op]) f' (some o)) (hcalls : f'.calls = (survivors h).map fun c => (c.1, some c.2))
    (hlog : f'.logTraceback = o.isException) : Agrees isStopIteration (h ++ [op]) f' := by
  constructor
  · rw [completed_snoc, hnone, hop]
    exact hfields
  · rw [hcalls, scheduled_completing hnone hop]
  · rw [hlog, unretrieved_completing hnone hop]

theorem agrees_step_pending (hf : Agrees isStopIteration h f) (hnone : completed isStopIteration h = none)
    (op : Op φ γ ν ε) :
    Agrees isStopIteration (h ++ [op]) (step isStopIteration f op).1 ∧
      (step isStopIteration f op).2 = answer isStopIteration h op := by
  obtain ⟨hfields, hcalls, hlog⟩ := hf
  rw [hnone] at hfields
  obtain ⟨hstatus, hcallbacks, hresult, hexception⟩ := hfields
  rw [scheduled_of_none hnone] at hcalls
  rw [unretrieved_of_none hnone] at hlog
  cases op with
  | addDoneCallback fn context current =>
    have hstep : step isStopIteration f (.addDoneCallback fn context current) =
        ({ f with callbacks := f.callbacks ++ [(fn, context.getD current)] }, .none) := by simp [step, hstatus]
    rw [hstep]
    refine ⟨agrees_stays hnone rfl ?_ hcalls hlog, rfl⟩
    exact ⟨hstatus, by rw [survivors_snoc_add, hcallbacks], hresult, hexception⟩
  | removeDoneCallback fn =>
    rw [step_remove]
    refine ⟨agrees_stays hnone rfl ?_ hcalls hlog, by rw [answer, hnone, hcallbacks]⟩
    exact ⟨hstatus, by rw [survivors_snoc_remove, hcallbacks], hresult, hexception⟩
  | cancel =>
    have hstep : step isStopIteration f .cancel =
        (scheduleCallbacks { { f with logTraceback := false } with status := .cancelled }, .bool true) := by
      simp [step, hstatus]
    rw [hstep]
    refine ⟨agrees_completes hnone rfl ⟨rfl, rfl⟩ ?_ rfl, by rw [answer, hnone]; rfl⟩
    rw [scheduleCallbacks, hcalls, ← hcallbacks]
    rfl
  | setResult result =>
    have hstep : step isStopIteration f (.setResult result) =
        (scheduleCallbacks { f with result := some result, status := .finished }, .none) := by simp [step, hstatus]
    rw [hstep]
    refine ⟨agrees_completes hnone rfl ⟨rfl, rfl, rfl, hexception⟩ ?_ hlog, by rw [answer, hnone]; rfl⟩
    rw [scheduleCallbacks, hcalls, ← hcallbacks]
    rfl
  | setException exception =>
    by_cases hstop : isStopIteration exception.get
    · have hstep : step isStopIteration f (.setException exception) = (f, .typeError) := by simp [step, hstatus, hstop]
      rw [hstep]
      refine ⟨agrees_stays hnone (by rw [outcome, if_pos hstop]) ?_ hcalls hlog, by simp [answer, hnone, hstop]⟩
      exact ⟨hstatus, by rw [survivors_snoc_of_keeps rfl, hcallbacks], hresult, hexception⟩
    · have hstep : step isStopIteration f (.setException exception) =
          ({ scheduleCallbacks { f with exception := some exception.get, status := .finished } with
              logTraceback := true }, .none) := by simp [step, hstatus, hstop]
      rw [hstep]
      have hop : outcome isStopIteration (.setException exception : Op φ γ ν ε) = some (.exception exception.get) := by
        rw [outcome, if_neg hstop]
      refine ⟨agrees_completes hnone hop ⟨rfl, rfl, rfl⟩ ?_ rfl, by simp [answer, hnone, hstop]⟩
      rw [scheduleCallbacks, hcalls, ← hcallbacks]
      rfl
  | _ =>
    -- The questions change nothing.
    have hsame : ∀ op : Op φ γ ν ε, op.keepsCallbacks → Fields (h ++ [op]) f none := fun op hop =>
      ⟨hstatus, by rw [survivors_snoc_of_keeps hop, hcallbacks], hresult, hexception⟩
    simp only [step, hstatus, answer, hnone]
    exact ⟨agrees_stays hnone rfl (hsame _ rfl) hcalls hlog, by trivial⟩

theorem agrees_done {f' : Future φ γ ν ε} {op : Op φ γ ν ε} {o : Outcome ν ε} (hf : Agrees isStopIteration h f)
    (hsome : completed isStopIteration h = some o) (hstatus : f'.status = f.status) (hresult : f'.result = f.result)
    (hexception : f'.exception = f.exception) (hcallbacks : f'.callbacks = f.callbacks)
    (hcalls : f'.calls = f.calls ++ op.added.toList)
    (hlog : f'.logTraceback = (f.logTraceback && !op.retrieves)) : Agrees isStopIteration (h ++ [op]) f' := by
  obtain ⟨hfields, hcalls', hlog'⟩ := hf
  constructor
  · rw [completed_snoc, hsome, Option.some_or]
    rw [hsome] at hfields
    cases o <;> simpa only [Fields, hstatus, hresult, hexception, hcallbacks] using hfields
  · rw [hcalls, hcalls', scheduled_done hsome]
  · rw [hlog, hlog', unretrieved_done hsome]

/-- A question to a future that is done: nothing is registered, and it may be that the exception has been asked for. -/
theorem agrees_asked {op : Op φ γ ν ε} {o : Outcome ν ε} {log : Bool} {a : Answer ν ε}
    (hf : Agrees isStopIteration h f) (hsome : completed isStopIteration h = some o) (hadded : op.added = none)
    (hstep : step isStopIteration f op = ({ f with logTraceback := log }, a))
    (hlog : log = (f.logTraceback && !op.retrieves)) (hanswer : answer isStopIteration h op = a) :
    Agrees isStopIteration (h ++ [op]) (step isStopIteration f op).1 ∧
      (step isStopIteration f op).2 = answer isStopIteration h op := by
  rw [hstep, hanswer]
  refine ⟨agrees_done hf hsome rfl rfl rfl rfl ?_ hlog, rfl⟩
  rw [hadded]
  exact (List.append_nil _).symm

/-- A cancelled future has no traceback to log, so that the questions that raise leave it as they should. -/
theorem logTraceback_of_cancelled (hf : Agrees isStopIteration h f)
    (hsome : completed isStopIteration h = some .cancelled) : f.logTraceback = (f.logTraceback && false) := by
  rw [hf.logTraceback, unretrieved, hsome]
  rfl

theorem agrees_step_result {o : Outcome ν ε} (hf : Agrees isStopIteration h f)
    (hsome : completed isStopIteration h = some o) :
    Agrees isStopIteration (h ++ [.result]) (step isStopIteration f .result).1 ∧
      (step isStopIteration f .result).2 = answer isStopIteration h .result := by
  have hfields := hf.fields
  rw [hsome] at hfields
  cases o with
  | cancelled =>
    have hstep : step isStopIteration f .result = (f, .cancelledError) := by simp [step, hfields.1]
    exact agrees_asked hf hsome rfl hstep (logTraceback_of_cancelled hf hsome) (by rw [answer, hsome])
  | result v =>
    have hstep : step isStopIteration f .result = ({ f with logTraceback := false }, .value (some v)) := by
      simp [step, hfields.1, hfields.2.2.1, hfields.2.2.2]
    exact agrees_asked hf hsome rfl hstep (Bool.and_false _).symm (by rw [answer, hsome])
  | exception e =>
    have hstep : step isStopIteration f .result = ({ f with logTraceback := false }, .raises e) := by
      simp [step, hfields.1, hfields.2.2]
    exact agrees_asked hf hsome rfl hstep (Bool.and_false _).symm (by rw [answer, hsome])

theorem agrees_step_exception {o : Outcome ν ε} (hf : Agrees isStopIteration h f)
    (hsome : completed isStopIteration h = some o) :
    Agrees isStopIteration (h ++ [.exception]) (step isStopIteration f .exception).1 ∧
      (step isStopIteration f .exception).2 = answer isStopIteration h .exception := by
  have hfields := hf.fields
  rw [hsome] at hfields
  cases o with
  | cancelled =>
    have hstep : step isStopIteration f .exception = (f, .cancelledError) := by simp [step, hfields.1]
    exact agrees_asked hf hsome rfl hstep (logTraceback_of_cancelled hf hsome) (by rw [answer, hsome])
  | result v =>
    have hstep : step isStopIteration f .exception = ({ f with logTraceback := false }, .exception none) := by
      simp [step, hfields.1, hfields.2.2.2]
    exact agrees_asked hf hsome rfl hstep (Bool.and_false _).symm (by rw [answer, hsome])
  | exception e =>
    have hstep : step isStopIteration f .exception = ({ f with logTraceback := false }, .exception (some e)) := by
      simp [step, hfields.1, hfields.2.2]
    exact agrees_asked hf hsome rfl hstep (Bool.and_false _).symm (by rw [answer, hsome])

theorem agrees_step_done {o : Outcome ν ε} (hf : Agrees isStopIteration h f)
    (hsome : completed isStopIteration h = some o) (op : Op φ γ ν ε) :
    Agrees isStopIteration (h ++ [op]) (step isStopIteration f op).1 ∧
      (step isStopIteration f op).2 = answer isStopIteration h op := by
  have hfields := hf.fields
  rw [hsome] at hfields
  have hnot : f.status ≠ .pending := by cases o <;> simp [hfields.1]
  cases op with
  | addDoneCallback fn context current =>
    have hstep : step isStopIteration f (.addDoneCallback fn context current) =
        ({ f with calls := f.calls ++ [(fn, context)] }, .none) := if_pos hnot
    rw [hstep]
    exact ⟨agrees_done hf hsome rfl rfl rfl rfl rfl (Bool.and_true _).symm, rfl⟩
  | removeDoneCallback fn =>
    have hcallbacks : f.callbacks = [] := by
      cases o with
      | cancelled => exact hfields.2
      | result v => exact hfields.2.1
      | exception e => exact hfields.2.1
    rw [step_remove, hcallbacks]
    refine ⟨agrees_done hf hsome rfl rfl rfl hcallbacks.symm (List.append_nil _).symm (Bool.and_true _).symm, ?_⟩
    rw [answer, hsome]
    rfl
  | cancel =>
    have hstep : step isStopIteration f .cancel = ({ f with logTraceback := false }, .bool false) := if_pos hnot
    exact agrees_asked hf hsome rfl hstep (Bool.and_false _).symm (by rw [answer, hsome]; rfl)
  | setResult result =>
    have hstep : step isStopIteration f (.setResult result) = (f, .invalidStateError) := if_pos hnot
    exact agrees_asked hf hsome rfl hstep (Bool.and_true _).symm (by rw [answer, hsome]; rfl)
  | setException exception =>
    have hstep : step isStopIteration f (.setException exception) = (f, .invalidStateError) := if_pos hnot
    exact agrees_asked hf hsome rfl hstep (Bool.and_true _).symm (by rw [answer, hsome]; rfl)
  | result => exact agrees_step_result hf hsome
  | exception => exact agrees_step_exception hf hsome
  | done =>
    refine ⟨agrees_done hf hsome rfl rfl rfl rfl (List.append_nil _).symm (Bool.and_true _).symm, ?_⟩
    simp [step, answer, hsome, hnot]
  | cancelled =>
    refine ⟨agrees_done hf hsome rfl rfl rfl rfl (List.append_nil _).symm (Bool.and_true _).symm, ?_⟩
    cases o <;> simp [step, answer, hsome, hfields.1]

end Step

/-! ## Every history -/

theorem agrees_final (h : List (Op φ γ ν ε)) : Agrees isStopIteration h (final (step isStopIteration) init h) := by
  induction h using List.reverseRecOn with
  | nil => exact ⟨⟨rfl, rfl, rfl, rfl⟩, rfl, rfl⟩
  | append_singleton h op ih =>
    rw [final_append]
    cases hcompleted : completed isStopIteration h with
    | none => exact (agrees_step_pending ih hcompleted op).1
    | some o => exact (agrees_step_done ih hcompleted op).1

end GoodGoodStudy.AioFuture
