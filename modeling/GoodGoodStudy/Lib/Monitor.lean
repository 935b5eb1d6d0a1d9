/-
Monitors: threads that call methods on one shared object, with one lock on which they can also wait. What a
thread does by itself is separated from what its step means for the others (the lock is taken or given back, the
waiting threads are woken), so that an invariant of the whole is shown thread by thread: one assertion for the
threads that do not hold the lock, one for the thread that does, and one for the object while nobody holds it.
-/
import Mathlib.Logic.Function.Basic
import GoodGoodStudy.Lib.Run

namespace GoodGoodStudy.Lib.Monitor

variable {σ κ ι : Type*}

/-! ## Threads -/

/-- The statements of a method on an object in the state `σ`. -/
inductive Stmt (σ : Type*)
  | lock
  | unlock
  | wait
  | notifyAll
  | act (f : σ → σ)
  | ifElse (c : σ → Bool) (t e : List (Stmt σ))

/-- A thread that was notified asks for the lock again, and with it resumes behind its `wait`. -/
inductive Phase
  | running
  | waiting
  | notified
  | resumed
  deriving DecidableEq, Repr

/-- The call under way with what is left of its body, and the calls that follow it. -/
structure Thread (σ κ : Type*) where
  call : Option κ
  code : List (Stmt σ)
  phase : Phase
  calls : List κ

/-- What a step means for the other threads. -/
inductive Effect
  | silent
  | acquire
  | release
  | notifyAll
  deriving DecidableEq, Repr

namespace Thread

def start (calls : List κ) : Thread σ κ := ⟨none, [], .running, calls⟩

/-- A step of the thread by itself, given the bodies of the methods. -/
def next (body : κ → List (Stmt σ)) (t : Thread σ κ) (s : σ) : Option (Thread σ κ × σ × Effect) :=
  match t.phase with
  | .waiting => none
  | .notified => some ({ t with phase := .resumed }, s, .acquire)
  | .running | .resumed =>
    match t.code with
    | [] =>
      match t.calls with
      | [] => none
      | c :: calls => some (⟨some c, body c, .running, calls⟩, s, .silent)
    | .lock :: code => some ({ t with code := code }, s, .acquire)
    | .unlock :: code => some ({ t with code := code }, s, .release)
    | .wait :: code => some ({ t with code := code, phase := .waiting }, s, .release)
    | .notifyAll :: code => some ({ t with code := code }, s, .notifyAll)
    | .act f :: code => some ({ t with code := code }, f s, .silent)
    | .ifElse c thn els :: code => some ({ t with code := (if c s then thn else els) ++ code }, s, .silent)

/-- The thread does not wait, and nothing is left of the body of its call. -/
def Done (t : Thread σ κ) : Bool := t.code.isEmpty && (t.phase == .running || t.phase == .resumed)

/-- A call that is done returns. -/
def settle (t : Thread σ κ) : Thread σ κ := if t.Done then { t with call := none, phase := .running } else t

/-- The call that returns, if it is done. -/
def done (t : Thread σ κ) : List κ := if t.Done then t.call.toList else []

def wake (t : Thread σ κ) : Thread σ κ := if t.phase = .waiting then { t with phase := .notified } else t

end Thread

/-! ## The monitor -/

/-- The object, the holder of its lock, the threads, and the calls that have returned, the last one first. -/
structure State (ι σ κ : Type*) where
  shared : σ
  owner : Option ι
  threads : ι → Thread σ κ
  returned : List κ

variable [DecidableEq ι]

def start (s : σ) (calls : ι → List κ) : State ι σ κ := ⟨s, none, fun i => .start (calls i), []⟩

/-- The lock after a step of thread `i`: it is taken only if it is free, and given back and notified on only by its
holder. -/
def Effect.owner (i : ι) (owner : Option ι) : Effect → Option (Option ι)
  | .silent => some owner
  | .acquire => if owner = none then some (some i) else none
  | .release => if owner = some i then some none else none
  | .notifyAll => if owner = some i then some owner else none

/-- The other threads after a step. -/
def Effect.others (threads : ι → Thread σ κ) : Effect → ι → Thread σ κ
  | .notifyAll => fun j => (threads j).wake
  | .silent | .acquire | .release => threads

/-- A step of thread `i`; `none` if it has to wait or has nothing left to do. -/
def step (body : κ → List (Stmt σ)) (m : State ι σ κ) (i : ι) : Option (State ι σ κ) :=
  ((m.threads i).next body m.shared).bind fun (t, s, e) => (e.owner i m.owner).map fun owner =>
    ⟨s, owner, Function.update (e.others m.threads) i t.settle, t.done ++ m.returned⟩

/-! ## Invariants thread by thread -/

/-- Every thread that does not hold the lock is as `Out` says, the holder is as `In` says, and while nobody holds
the lock the object is as `Free` says; the last two may speak of the calls that have returned. -/
structure Holds (Out : Thread σ κ → Prop) (In : Thread σ κ → σ → List κ → Prop) (Free : σ → List κ → Prop)
    (m : State ι σ κ) : Prop where
  out : ∀ i, m.owner ≠ some i → Out (m.threads i)
  inside : ∀ i, m.owner = some i → In (m.threads i) m.shared m.returned
  free : m.owner = none → Free m.shared m.returned

omit [DecidableEq ι] in
theorem holds_start {Out : Thread σ κ → Prop} {In : Thread σ κ → σ → List κ → Prop} {Free : σ → List κ → Prop}
    {s : σ} (calls : ι → List κ) (hout : ∀ calls, Out (.start calls)) (hfree : Free s []) :
    Holds Out In Free (start s calls) where
  out := fun i _ => hout (calls i)
  inside := fun i hi => absurd hi.symm (Option.some_ne_none i)
  free := fun _ => hfree

section Rule

variable {body : κ → List (Stmt σ)} {Out : Thread σ κ → Prop} {In : Thread σ κ → σ → List κ → Prop}
  {Free : σ → List κ → Prop} {ok : Thread σ κ → Prop}

/-- What the assertions have to satisfy, for the steps of threads that meet a condition. -/
structure Sound (body : κ → List (Stmt σ)) (ok : Thread σ κ → Prop) (Out : Thread σ κ → Prop)
    (In : Thread σ κ → σ → List κ → Prop) (Free : σ → List κ → Prop) : Prop where
  wake : ∀ t, Out t → Out t.wake
  outside : ∀ t s t' s', Out t → t.next body s = some (t', s', .silent) → s' = s ∧ t'.done = [] ∧ Out t'.settle
  enter : ∀ t s r t' s', Out t → Free s r → t.next body s = some (t', s', .acquire) → In t'.settle s' (t'.done ++ r)
  within : ∀ t s r t' s' e, In t s r → t.next body s = some (t', s', e) → e = .silent ∨ e = .notifyAll →
    In t'.settle s' (t'.done ++ r)
  leave : ∀ t s r t' s', ok t → In t s r → t.next body s = some (t', s', .release) →
    Out t'.settle ∧ Free s' (t'.done ++ r)

theorem step_some {m m' : State ι σ κ} {i : ι} (h : step body m i = some m') :
    ∃ t s e owner, (m.threads i).next body m.shared = some (t, s, e) ∧ e.owner i m.owner = some owner ∧
      m' = ⟨s, owner, Function.update (e.others m.threads) i t.settle, t.done ++ m.returned⟩ := by
  obtain ⟨⟨t, s, e⟩, hn, h⟩ := Option.bind_eq_some_iff.1 h
  obtain ⟨owner, ho, rfl⟩ := Option.map_eq_some_iff.1 h
  exact ⟨t, s, e, owner, hn, ho, rfl⟩

theorem step_of_next {m : State ι σ κ} {i : ι} {t : Thread σ κ} {s : σ} {e : Effect} {owner : Option ι}
    (hn : (m.threads i).next body m.shared = some (t, s, e)) (ho : e.owner i m.owner = some owner) :
    step body m i = some ⟨s, owner, Function.update (e.others m.threads) i t.settle, t.done ++ m.returned⟩ := by
  unfold step
  rw [hn, Option.bind_some]
  exact congrArg (Option.map _) ho

omit [DecidableEq ι] in
theorem Sound.others (hs : Sound body ok Out In Free) (e : Effect) {threads : ι → Thread σ κ} {j : ι}
    (h : Out (threads j)) : Out (e.others threads j) := by
  cases e with
  | notifyAll => exact hs.wake _ h
  | silent => exact h
  | acquire => exact h
  | release => exact h

/-- The thread that holds the lock has made a step. -/
theorem holds_owned {threads : ι → Thread σ κ} {owner : Option ι} {i : ι} {t : Thread σ κ} {s : σ} {r : List κ}
    (howner : owner = some i) (hother : ∀ j, j ≠ i → Out (threads j)) (hin : In t s r) :
    Holds Out In Free ⟨s, owner, Function.update threads i t, r⟩ where
  out := fun j hj => by
    have hji : j ≠ i := by
      rintro rfl
      exact hj howner
    dsimp only
    rw [Function.update_of_ne hji]
    exact hother j hji
  inside := fun j hj => by
    obtain rfl : i = j := Option.some.inj (howner.symm.trans hj)
    dsimp only
    rwa [Function.update_self]
  free := fun hfree => absurd (howner.symm.trans hfree) (Option.some_ne_none i)

/-- The thread that held the lock has released it. -/
theorem holds_released {threads : ι → Thread σ κ} {i : ι} {t : Thread σ κ} {s : σ} {r : List κ}
    (hother : ∀ j, j ≠ i → Out (threads j)) (hout : Out t) (hfree : Free s r) :
    Holds Out In Free ⟨s, none, Function.update threads i t, r⟩ where
  out := fun j _ => by
    dsimp only
    by_cases hji : j = i
    · subst hji
      rwa [Function.update_self]
    · rw [Function.update_of_ne hji]
      exact hother j hji
  inside := fun j hj => absurd hj.symm (Option.some_ne_none j)
  free := fun _ => hfree

/-- A thread outside of the lock has made a step that nothing else sees. -/
theorem holds_outside {m : State ι σ κ} {i : ι} {t : Thread σ κ} (hm : Holds Out In Free m) (howner : m.owner ≠ some i)
    (hout : Out t) : Holds Out In Free ⟨m.shared, m.owner, Function.update m.threads i t, m.returned⟩ where
  out := fun j hj => by
    dsimp only
    by_cases hji : j = i
    · subst hji
      rwa [Function.update_self]
    · rw [Function.update_of_ne hji]
      exact hm.out j hj
  inside := fun j hj => by
    have hji : j ≠ i := by
      rintro rfl
      exact howner hj
    dsimp only
    rw [Function.update_of_ne hji]
    exact hm.inside j hj
  free := hm.free

/-- The rule: a step of a thread that meets the condition keeps the assertions. -/
theorem Sound.step (hs : Sound body ok Out In Free) {m m' : State ι σ κ} {i : ι} (hm : Holds Out In Free m)
    (hok : ok (m.threads i)) (h : step body m i = some m') : Holds Out In Free m' := by
  obtain ⟨t, s, e, owner, hn, ho, rfl⟩ := step_some h
  have hother : ∀ e : Effect, m.owner = some i → ∀ j, j ≠ i → Out (e.others m.threads j) := fun e howner j hji =>
    hs.others e (hm.out j fun hj => hji (Option.some.inj (hj.symm.trans howner)))
  cases e with
  | silent =>
    cases ho
    by_cases howner : m.owner = some i
    · apply holds_owned howner (hother .silent howner)
      exact hs.within _ _ _ _ _ _ (hm.inside i howner) hn (Or.inl rfl)
    · obtain ⟨rfl, hdone, hout⟩ := hs.outside _ _ _ _ (hm.out i howner) hn
      rw [hdone, List.nil_append]
      exact holds_outside hm howner hout
  | acquire =>
    obtain ⟨hnone, rfl⟩ : m.owner = none ∧ some i = owner := by
      rwa [Effect.owner, Option.ite_none_right_eq_some, Option.some_inj] at ho
    have hne : ∀ j, m.owner ≠ some j := fun j => hnone ▸ (Option.some_ne_none j).symm
    apply holds_owned rfl fun j _ => hs.others .acquire (hm.out j (hne j))
    exact hs.enter _ _ _ _ _ (hm.out i (hne i)) (hm.free hnone) hn
  | release =>
    obtain ⟨howner, rfl⟩ : m.owner = some i ∧ none = owner := by
      rwa [Effect.owner, Option.ite_none_right_eq_some, Option.some_inj] at ho
    obtain ⟨hout, hfree⟩ := hs.leave _ _ _ _ _ hok (hm.inside i howner) hn
    exact holds_released (hother .release howner) hout hfree
  | notifyAll =>
    obtain ⟨howner, rfl⟩ : m.owner = some i ∧ m.owner = owner := by
      rwa [Effect.owner, Option.ite_none_right_eq_some, Option.some_inj] at ho
    apply holds_owned howner (hother .notifyAll howner)
    exact hs.within _ _ _ _ _ _ (hm.inside i howner) hn (Or.inr rfl)

end Rule

end GoodGoodStudy.Lib.Monitor
