/-
The accounts of the two exercises on communication between threads: `draw` and `deposit` take turns by a flag, once
with `synchronized` and `wait`, once with a `Lock` and its `Condition`. A call that finds the flag against it waits,
and when it is woken it does not go back to its test: the work stands in the `else` of that test, so the call returns
without having moved any money.
-/
import Mathlib.Algebra.Group.Int.Defs
import Mathlib.Algebra.BigOperators.Group.List.Basic
import GoodGoodStudy.Lib.Monitor

namespace GoodGoodStudy.ThreadCommunication

open GoodGoodStudy.Lib GoodGoodStudy.Lib.Monitor

/-- The fields that the two methods use; the amounts are of any additive commutative group. -/
structure Account (A : Type*) where
  balance : A
  flag : Bool
  deriving Repr

variable {A ι : Type*}

/-! ## The methods -/

/-- `if (blocked) wait(); else { … notifyAll(); }`: the two methods differ in the test and in the assignments. -/
def turn (blocked : Account A → Bool) (move setFlag : Account A → Account A) : List (Stmt (Account A)) :=
  [.ifElse blocked [.wait] [.act move, .act setFlag, .notifyAll]]

/-- A `synchronized` method. -/
def synchronizedMethod (body : List (Stmt (Account A))) : List (Stmt (Account A)) := .lock :: body ++ [.unlock]

variable [AddCommGroup A]

def drawTurn (drawAmount : A) : List (Stmt (Account A)) :=
  turn (fun a => !a.flag) (fun a => { a with balance := a.balance - drawAmount }) fun a => { a with flag := false }

def depositTurn (depositAmount : A) : List (Stmt (Account A)) :=
  turn (fun a => a.flag) (fun a => { a with balance := a.balance + depositAmount }) fun a => { a with flag := true }

namespace ThreadCommunication10

def draw (drawAmount : A) : List (Stmt (Account A)) := synchronizedMethod (drawTurn drawAmount)

def deposit (depositAmount : A) : List (Stmt (Account A)) := synchronizedMethod (depositTurn depositAmount)

end ThreadCommunication10

namespace ThreadCommunication11

def draw (drawAmount : A) : List (Stmt (Account A)) := .lock :: (drawTurn drawAmount ++ [.unlock])

def deposit (depositAmount : A) : List (Stmt (Account A)) := .lock :: (depositTurn depositAmount ++ [.unlock])

end ThreadCommunication11

inductive Version
  | communication10
  | communication11
  deriving DecidableEq, Repr

inductive Call (A : Type*)
  | draw (drawAmount : A)
  | deposit (depositAmount : A)
  deriving DecidableEq, Repr

def body : Version → Call A → List (Stmt (Account A))
  | .communication10, .draw drawAmount => ThreadCommunication10.draw drawAmount
  | .communication10, .deposit depositAmount => ThreadCommunication10.deposit depositAmount
  | .communication11, .draw drawAmount => ThreadCommunication11.draw drawAmount
  | .communication11, .deposit depositAmount => ThreadCommunication11.deposit depositAmount

/-- The account with its first balance, and threads that are to make these calls. -/
def start (balance : A) (calls : ι → List (Call A)) : State ι (Account A) (Call A) :=
  Monitor.start ⟨balance, false⟩ calls

/-! ## The accounts are balanced -/

/-- What a call is to add to the balance. -/
def Call.effect : Call A → A
  | .draw drawAmount => -drawAmount
  | .deposit depositAmount => depositAmount

/-- All deposits less all draws. -/
def net (calls : List (Call A)) : A := (calls.map Call.effect).sum

/-- The balance is the first one with the calls that have returned, or with these and the call that holds the
lock. -/
def Balanced (balance : A) (m : State ι (Account A) (Call A)) : Prop :=
  m.shared.balance = balance + net m.returned ∨
    ∃ i c, m.owner = some i ∧ (m.threads i).call = some c ∧
      m.shared.balance = balance + net m.returned + c.effect

/-- The thread has waited in a call about a nonzero amount, and has the lock again. -/
def Resumed (t : Thread (Account A) (Call A)) : Prop :=
  t.phase = .resumed ∧ ∃ c, t.call = some c ∧ c.effect ≠ 0

@[simp] theorem net_cons (c : Call A) (calls : List (Call A)) : net (c :: calls) = c.effect + net calls := rfl

/-! ## The points of a call -/

namespace Call

def blocked : Call A → Account A → Bool
  | .draw _, a => !a.flag
  | .deposit _, a => a.flag

def move : Call A → Account A → Account A
  | .draw drawAmount, a => { a with balance := a.balance - drawAmount }
  | .deposit depositAmount, a => { a with balance := a.balance + depositAmount }

def setFlag : Call A → Account A → Account A
  | .draw _, a => { a with flag := false }
  | .deposit _, a => { a with flag := true }

theorem balance_move (c : Call A) (a : Account A) : (c.move a).balance = a.balance + c.effect := by
  cases c with
  | draw drawAmount => exact sub_eq_add_neg a.balance drawAmount
  | deposit depositAmount => rfl

omit [AddCommGroup A] in
theorem balance_setFlag (c : Call A) (a : Account A) : (c.setFlag a).balance = a.balance := by cases c <;> rfl

end Call

theorem body_eq (v : Version) (c : Call A) :
    body v c = [.lock, .ifElse c.blocked [.wait] [.act c.move, .act c.setFlag, .notifyAll], .unlock] := by
  cases v <;> cases c <;> rfl

/-- Where a thread can be that does not hold the lock. -/
inductive Outside (v : Version) : Thread (Account A) (Call A) → Prop
  | idle (calls : List (Call A)) : Outside v (.start calls)
  | called (c : Call A) (calls : List (Call A)) : Outside v ⟨some c, body v c, .running, calls⟩
  | waiting (c : Call A) (calls : List (Call A)) : Outside v ⟨some c, [.unlock], .waiting, calls⟩
  | notified (c : Call A) (calls : List (Call A)) : Outside v ⟨some c, [.unlock], .notified, calls⟩

/-- Where the holder of the lock can be, and what its call has added to the balance so far. -/
inductive Point (c : Call A) : Phase → List (Stmt (Account A)) → A → Prop
  | entered : Point c .running
      [.ifElse c.blocked [.wait] [.act c.move, .act c.setFlag, .notifyAll], .unlock] 0
  | free : Point c .running [.act c.move, .act c.setFlag, .notifyAll, .unlock] 0
  | taken : Point c .running [.wait, .unlock] 0
  | moved : Point c .running [.act c.setFlag, .notifyAll, .unlock] c.effect
  | flagged : Point c .running [.notifyAll, .unlock] c.effect
  | finished : Point c .running [.unlock] c.effect
  | resumed : Point c .resumed [.unlock] 0

inductive Inside (balance : A) : Thread (Account A) (Call A) → Account A → List (Call A) → Prop
  | intro (c : Call A) {phase : Phase} {code : List (Stmt (Account A))} {calls : List (Call A)} {sum : A}
      {a : Account A} {returned : List (Call A)} (point : Point c phase code sum)
      (eq : a.balance = balance + net returned + sum) : Inside balance ⟨some c, code, phase, calls⟩ a returned

def Free (balance : A) (a : Account A) (returned : List (Call A)) : Prop := a.balance = balance + net returned

section Sound

variable {v : Version} {balance : A} {t t' : Thread (Account A) (Call A)} {a a' : Account A}
  {returned : List (Call A)} {e : Effect}

theorem Outside.wake (h : Outside v t) : Outside v t.wake := by
  cases h with
  | idle calls => exact .idle calls
  | called c calls => exact .called c calls
  | waiting c calls => exact .notified c calls
  | notified c calls => exact .notified c calls

theorem Outside.silent (h : Outside v t) (hn : t.next (body v) a = some (t', a', .silent)) :
    a' = a ∧ t'.done = [] ∧ Outside v t'.settle := by
  cases h with
  | idle calls =>
    cases calls with
    | nil => cases hn
    | cons c calls =>
      -- the next call begins, and is not at its end yet
      cases hn
      have hdone : Thread.Done (⟨some c, body v c, .running, calls⟩ : Thread (Account A) (Call A)) = false := by
        rw [body_eq]; rfl
      refine ⟨rfl, if_neg (by rw [hdone]; decide), ?_⟩
      rw [Thread.settle, if_neg (by rw [hdone]; decide)]
      exact .called c calls
  | called c calls => rw [body_eq] at hn; cases hn
  | waiting c calls => cases hn
  | notified c calls => cases hn

theorem Outside.acquire (h : Outside v t) (hfree : Free balance a returned)
    (hn : t.next (body v) a = some (t', a', .acquire)) : Inside balance t'.settle a' (t'.done ++ returned) := by
  have heq : a.balance = balance + net returned + 0 := hfree.trans (add_zero _).symm
  cases h with
  | idle calls => cases calls <;> cases hn
  | called c calls =>
    rw [body_eq] at hn
    cases hn
    exact .intro _ .entered heq
  | waiting c calls => cases hn
  | notified c calls =>
    cases hn
    exact .intro _ .resumed heq

theorem Inside.within (h : Inside balance t a returned) (hn : t.next (body v) a = some (t', a', e))
    (he : e = .silent ∨ e = .notifyAll) : Inside balance t'.settle a' (t'.done ++ returned) := by
  obtain ⟨c, point, heq⟩ := h
  cases point with
  | entered =>
    cases hn
    cases hb : c.blocked a with
    | true => exact .intro _ .taken heq
    | false => exact .intro _ .free heq
  | free =>
    cases hn
    refine .intro _ .moved ?_
    rw [Call.balance_move, heq, add_zero]
    rfl
  | taken => cases hn; cases he <;> contradiction
  | moved =>
    cases hn
    exact .intro _ .flagged ((Call.balance_setFlag _ a).trans heq)
  | flagged =>
    cases hn
    exact .intro _ .finished heq
  | finished => cases hn; cases he <;> contradiction
  | resumed => cases hn; cases he <;> contradiction

theorem Inside.release (hok : ¬ Resumed t) (h : Inside balance t a returned)
    (hn : t.next (body v) a = some (t', a', .release)) :
    Outside v t'.settle ∧ Free balance a' (t'.done ++ returned) := by
  obtain ⟨c, point, heq⟩ := h
  cases point with
  | entered => cases hn
  | free => cases hn
  | taken =>
    cases hn
    exact ⟨.waiting _ _, heq.trans (add_zero _)⟩
  | moved => cases hn
  | flagged => cases hn
  | finished =>
    cases hn
    refine ⟨.idle _, ?_⟩
    show a.balance = balance + net (c :: returned)
    rw [heq, net_cons, add_comm c.effect, add_assoc]
  | resumed =>
    -- the call returns without having moved anything, so its amount has to be 0
    cases hn
    refine ⟨.idle _, ?_⟩
    have hzero : c.effect = 0 := not_not.1 fun h => hok ⟨rfl, c, rfl, h⟩
    show a.balance = balance + net (c :: returned)
    rw [heq, net_cons, hzero, zero_add, add_zero]

end Sound

theorem sound (v : Version) (balance : A) :
    Sound (body v) (fun t => ¬ Resumed t) (Outside v) (Inside balance) (Free balance) where
  wake _ h := h.wake
  outside _ _ _ _ h hn := h.silent hn
  enter _ _ _ _ _ h hfree hn := h.acquire hfree hn
  within _ _ _ _ _ _ h hn he := h.within hn he
  leave _ _ _ _ _ hok h hn := h.release hok hn

/-! ## The balance -/

theorem Inside.balanced {balance : A} {t : Thread (Account A) (Call A)} {a : Account A} {returned : List (Call A)}
    (h : Inside balance t a returned) :
    a.balance = balance + net returned ∨
      ∃ c, t.call = some c ∧ a.balance = balance + net returned + c.effect := by
  obtain ⟨c, point, heq⟩ := h
  cases point with
  | entered => exact Or.inl (heq.trans (add_zero _))
  | free => exact Or.inl (heq.trans (add_zero _))
  | taken => exact Or.inl (heq.trans (add_zero _))
  | resumed => exact Or.inl (heq.trans (add_zero _))
  | moved => exact Or.inr ⟨c, rfl, heq⟩
  | flagged => exact Or.inr ⟨c, rfl, heq⟩
  | finished => exact Or.inr ⟨c, rfl, heq⟩

theorem balanced_of_holds {v : Version} {balance : A} {m : State ι (Account A) (Call A)}
    (h : Holds (Outside v) (Inside balance) (Free balance) m) : Balanced balance m := by
  cases howner : m.owner with
  | none => exact Or.inl (h.free howner)
  | some i =>
    rcases (h.inside i howner).balanced with heq | ⟨c, hcall, heq⟩
    · exact Or.inl heq
    · exact Or.inr ⟨i, c, howner, hcall, heq⟩

/-- A thread that has waited and has the lock again is about to return. -/
theorem Inside.of_resumed {balance : A} {t : Thread (Account A) (Call A)} {a : Account A} {returned : List (Call A)}
    (h : Inside balance t a returned) (hphase : t.phase = .resumed) :
    ∃ c calls, t = ⟨some c, [.unlock], .resumed, calls⟩ ∧ a.balance = balance + net returned := by
  obtain ⟨c, point, heq⟩ := h
  cases point with
  | resumed => exact ⟨c, _, rfl, heq.trans (add_zero _)⟩
  | _ => cases hphase

theorem Outside.not_resumed {v : Version} {t : Thread (Account A) (Call A)} (h : Outside v t) :
    t.phase ≠ .resumed := by
  cases h <;> exact nofun

/-- When a call that has waited returns, its amount is missing. -/
theorem not_balanced_of_resumed [DecidableEq ι] {v : Version} {balance : A} {m : State ι (Account A) (Call A)} {i : ι}
    (h : Holds (Outside v) (Inside balance) (Free balance) m) (hres : Resumed (m.threads i)) :
    ∃ m', step (body v) m i = some m' ∧ ¬ Balanced balance m' := by
  obtain ⟨hphase, c, hcall, hne⟩ := hres
  have howner : m.owner = some i := by
    by_contra hnot
    exact (h.out i hnot).not_resumed hphase
  obtain ⟨c', calls, ht, heq⟩ := (h.inside i howner).of_resumed hphase
  obtain rfl : c' = c := Option.some.inj ((congrArg Thread.call ht).symm.trans hcall)
  have hnext : (m.threads i).next (body v) m.shared =
      some (⟨some c', [], .resumed, calls⟩, m.shared, .release) := by rw [ht]; rfl
  have hlock : Effect.owner i m.owner .release = some none := if_pos howner
  refine ⟨_, step_of_next hnext hlock, ?_⟩
  rintro (hbal | ⟨_, _, hnone, -⟩)
  · have hret : m.shared.balance = balance + (c'.effect + net m.returned) := hbal
    have hzero : net m.returned = c'.effect + net m.returned := add_left_cancel (heq.symm.trans hret)
    exact hne (add_eq_right.1 hzero.symm)
  · cases hnone

/-- However many threads there are and however they are scheduled, the account is balanced in every state of a run if
and only if no call about a nonzero amount that has waited gets to its end. -/
theorem balanced_iff_not_resumed [DecidableEq ι] (v : Version) (balance : A) (calls : ι → List (Call A))
    (schedule : List ι) :
    AllStates (step (body v)) (Balanced balance) (start balance calls) schedule ↔
      StepsOk (step (body v)) (fun m i => ¬ Resumed (m.threads i)) (start balance calls) schedule := by
  refine allStates_iff_stepsOk (fun m hm => balanced_of_holds hm)
    (fun m i m' hm hok hstep => (sound v balance).step hm hok hstep)
    (fun m i hm hok => not_balanced_of_resumed hm (not_not.1 hok)) schedule ?_
  exact holds_start calls .idle (add_zero balance).symm

/-- One thread draws and waits, another one deposits, and the draw returns. -/
def drawFirst : Bool → List (Call Int)
  | false => [.draw 800]
  | true => [.deposit 800]

def drawFirstSchedule : List Bool :=
  [false, false, false, false, true, true, true, true, true, true, true, false, false]

theorem draw_first_lost :
    (¬ AllStates (step (body .communication10)) (Balanced 0) (start 0 drawFirst) drawFirstSchedule) ∧
      ¬ AllStates (step (body .communication11)) (Balanced 0) (start 0 drawFirst) drawFirstSchedule := by
  have hlost : ∀ m : State Bool (Account Int) (Call Int), m.owner = none → m.shared.balance = 800 →
      m.returned = [.draw 800, .deposit 800] → ¬ Balanced 0 m := by
    rintro m hfree hbalance hreturned (heq | ⟨i, c, howner, -⟩)
    · rw [hbalance, hreturned] at heq
      exact absurd heq (by decide)
    · rw [hfree] at howner
      cases howner
  exact ⟨fun h => hlost _ rfl rfl rfl (h.of_run rfl), fun h => hlost _ rfl rfl rfl (h.of_run rfl)⟩

end GoodGoodStudy.ThreadCommunication
