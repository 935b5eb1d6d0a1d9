/-
Coroutines over a shared world. A coroutine has returned, has raised, or is suspended before an
atomic action: the action reads and updates the world and decides how the coroutine continues.
Between two actions of a coroutine anything else may change the world, so a scheduler that
performs one action at a time gives every interleaving; `exec` is the run in which nothing else
happens.
-/
import Mathlib.Logic.Basic

universe u

namespace GoodGoodStudy.Lib

/-- A coroutine over the world `ε` that returns a `ρ` or raises a `χ`. -/
inductive Coro (ε χ ρ : Type u) : Type u where
  | ret (r : ρ)
  | raise (x : χ)
  | act (upd : ε → ε) (k : ε → Coro ε χ ρ)

namespace Coro

variable {ε χ ρ ρ' : Type u}

def bind : Coro ε χ ρ → (ρ → Coro ε χ ρ') → Coro ε χ ρ'
  | ret r, f => f r
  | raise x, _ => raise x
  | act upd k, f => act upd fun e => (k e).bind f

instance : Monad (Coro ε χ) where
  pure := ret
  bind := bind

/-- Read the world. -/
def ask (f : ε → ρ) : Coro ε χ ρ := act id fun e => ret (f e)

/-- Read the world; the reading may raise. -/
def askOr (f : ε → Except χ ρ) : Coro ε χ ρ :=
  act id fun e => match f e with
    | .ok r => ret r
    | .error x => raise x

@[simp] theorem ret_bind (r : ρ) (f : ρ → Coro ε χ ρ') : (ret r >>= f) = f r := rfl

@[simp] theorem act_bind (upd : ε → ε) (k : ε → Coro ε χ ρ) (f : ρ → Coro ε χ ρ') :
    (act upd k >>= f) = act upd fun e => k e >>= f := rfl

/-! ## Running alone -/

/-- Run to the end with nothing else happening. -/
def exec : Coro ε χ ρ → ε → Except χ ρ × ε
  | ret r, e => (.ok r, e)
  | raise x, e => (.error x, e)
  | act upd k, e => (k e).exec (upd e)

@[simp] theorem exec_ret (r : ρ) (e : ε) : (ret r : Coro ε χ ρ).exec e = (.ok r, e) := rfl

@[simp] theorem exec_raise (x : χ) (e : ε) : (raise x : Coro ε χ ρ).exec e = (.error x, e) := rfl

@[simp] theorem exec_act (upd : ε → ε) (k : ε → Coro ε χ ρ) (e : ε) :
    (act upd k).exec e = (k e).exec (upd e) := rfl

/-! ## Running among others -/

/-- `c'` is what is left of `c` after some of its actions, each in some world. -/
inductive Reaches (c : Coro ε χ ρ) : Coro ε χ ρ → Prop where
  | start : Reaches c c
  | act {upd : ε → ε} {k : ε → Coro ε χ ρ} (e : ε) : Reaches c (act upd k) → Reaches c (k e)

/-- `r` is a result of `c` in some interleaving. -/
def Yields (c : Coro ε χ ρ) (r : ρ) : Prop := Reaches c (ret r)

/-! ## Read-only coroutines -/

/-- No action of the coroutine updates the world. -/
inductive ReadOnly : Coro ε χ ρ → Prop where
  | ret (r : ρ) : ReadOnly (ret r)
  | raise (x : χ) : ReadOnly (raise x)
  | act {k : ε → Coro ε χ ρ} (hk : ∀ e, ReadOnly (k e)) : ReadOnly (act id k)

theorem ReadOnly.upd {upd : ε → ε} {k : ε → Coro ε χ ρ} (h : ReadOnly (Coro.act upd k)) :
    upd = id ∧ ∀ e, ReadOnly (k e) := by
  cases h with
  | act hk => exact ⟨rfl, hk⟩

theorem ReadOnly.ask (f : ε → ρ) : ReadOnly (Coro.ask f : Coro ε χ ρ) := .act fun e => .ret (f e)

theorem ReadOnly.askOr (f : ε → Except χ ρ) : ReadOnly (Coro.askOr f) := .act fun e => by
  cases f e with
  | ok r => exact .ret r
  | error x => exact .raise x

theorem ReadOnly.bind {c : Coro ε χ ρ} {f : ρ → Coro ε χ ρ'} (hc : ReadOnly c) (hf : ∀ r, ReadOnly (f r)) :
    ReadOnly (c >>= f) := by
  induction hc with
  | ret r => exact hf r
  | raise x => exact .raise x
  | act hk ih => exact .act ih

end Coro

end GoodGoodStudy.Lib
