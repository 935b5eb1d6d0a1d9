/-
Concurrent `get_data` calls on one manager. A state holds the manager, the world and every call
begun so far; a step begins a call, resumes one, or changes the world. History variables, which no
step reads, record which callback produced each entry and each call's value and which call began
last.

Whatever a step does is said once, in `step_begin`, `step_resume`, `step_world` and
`resume_cases`; the invariants of runs are derived from these.
-/
import GoodGoodStudy.Dali.Cache.Base

namespace GoodGoodStudy.Dali

open GoodGoodStudy.Lib

/-- A call of `get_data` with the arguments it was given. -/
structure Call (κ δ τ ε χ β γ : Type) where
  key : κ
  wrapDataCallback : Option β
  willReloadCallback : Option γ
  pc : Pc δ τ ε χ β
  /-- History: the callback that produced the value the call holds or waits for. -/
  source : Option β

structure System (κ δ τ ε χ β γ ι : Type) where
  manager : BaseCacheManager κ δ τ β γ
  world : ε
  calls : ι → Option (Call κ δ τ ε χ β γ)
  /-- History: the callback that produced the entry of a key. -/
  origin : κ → Option β
  /-- History: the call begun last. -/
  latest : Option ι

inductive Label (κ β γ ι α : Type) where
  | begin (i : ι) (key : κ) (wrapDataCallback : Option β) (willReloadCallback : Option γ)
  | resume (i : ι)
  | world (a : α)
  deriving DecidableEq

namespace System

variable {κ δ τ ε χ β γ ι α : Type} [DecidableEq κ] [DecidableEq ι]

/-- No call has begun. -/
def init (e : ε) : System κ δ τ ε χ β γ ι := ⟨.init, e, fun _ => none, fun _ => none, none⟩

def sourceOf (old : Option β) : Pc δ τ ε χ β → Option β
  | .wrapData callback _ => some callback
  | _ => old

/-- The entry of `key` after a resumption from `pc`. -/
def originOf (origin : κ → Option β) (key : κ) : Pc δ τ ε χ β → κ → Option β
  | .wrapData callback (.ret (some _)) => Function.update origin key (some callback)
  | _ => origin

def step (cls : CacheClass κ δ τ ε χ β γ) (worldStep : ε → α → Option ε) (s : System κ δ τ ε χ β γ ι) :
    Label κ β γ ι α → Option (System κ δ τ ε χ β γ ι)
  | .begin i key w g => match s.calls i with
    | some _ => none
    | none =>
      let (m, pc) := s.manager.getData cls key w g
      some { s with
        manager := m
        calls := Function.update s.calls i (some ⟨key, w, g, pc, sourceOf (s.origin key) pc⟩)
        latest := some i }
  | .resume i => do
    let c ← s.calls i
    let (m, pc, e) ← s.manager.resume cls c.key s.world c.pc
    return { s with
      manager := m
      world := e
      calls := Function.update s.calls i (some { c with pc, source := sourceOf c.source pc })
      origin := originOf s.origin c.key c.pc }
  | .world a => do
    let e ← worldStep s.world a
    return { s with world := e }

/-! ## What a resumption does -/

variable {cls : CacheClass κ δ τ ε χ β γ} {worldStep : ε → α → Option ε} {s s' : System κ δ τ ε χ β γ ι}

/-- The state after call `i` went on to `pc`. -/
def proceed (s : System κ δ τ ε χ β γ ι) (i : ι) (c : Call κ δ τ ε χ β γ) (m : BaseCacheManager κ δ τ β γ)
    (pc : Pc δ τ ε χ β) (e : ε) : System κ δ τ ε χ β γ ι :=
  { s with
    manager := m
    world := e
    calls := Function.update s.calls i (some { c with pc, source := sourceOf c.source pc })
    origin := originOf s.origin c.key c.pc }

theorem step_begin {i : ι} {key : κ} {w : Option β} {g : Option γ}
    (h : step cls worldStep s (.begin i key w g) = some s') :
    s.calls i = none ∧ s' = { s with
      manager := (s.manager.getData cls key w g).1
      calls := Function.update s.calls i (some ⟨key, w, g, (s.manager.getData cls key w g).2,
        sourceOf (s.origin key) (s.manager.getData cls key w g).2⟩)
      latest := some i } := by
  simp only [step] at h
  split at h
  · cases h
  · rename_i hi; cases h; exact ⟨hi, rfl⟩

theorem step_resume {i : ι} (h : step cls worldStep s (.resume i) = some s') :
    ∃ c m pc e, s.calls i = some c ∧ s.manager.resume cls c.key s.world c.pc = some (m, pc, e) ∧
      s' = s.proceed i c m pc e := by
  simp only [step, Option.bind_eq_bind, Option.bind_eq_some_iff, Option.pure_def] at h
  obtain ⟨c, hc, ⟨m, pc, e⟩, hr, h⟩ := h
  cases h
  exact ⟨c, m, pc, e, hc, hr, rfl⟩

theorem step_world {a : α} (h : step cls worldStep s (.world a) = some s') :
    ∃ e, worldStep s.world a = some e ∧ s' = { s with world := e } := by
  simp only [step, Option.bind_eq_bind, Option.bind_eq_some_iff, Option.pure_def] at h
  obtain ⟨e, he, h⟩ := h
  cases h
  exact ⟨e, he, rfl⟩

/-- The six ways a call goes on: one more action of its callback, the answer of `will_reload`, the
end of the wrap callback, or an exception. -/
theorem resume_cases {m m' : BaseCacheManager κ δ τ β γ} {key : κ} {e e' : ε} {pc pc' : Pc δ τ ε χ β}
    (h : m.resume cls key e pc = some (m', pc', e')) :
    (∃ w upd k, pc = .willReload w (.act upd k) ∧ m' = m ∧ pc' = .willReload w (k e) ∧ e' = upd e) ∨
    (∃ w, pc = .willReload w (.ret true) ∧ (m', pc') = m.retrieveCacheData cls key ∧ e' = e) ∨
    (∃ w, pc = .willReload w (.ret false) ∧ m' = m ∧ pc' = .returned (some w.data) ∧ e' = e) ∨
    (∃ cb upd k, pc = .wrapData cb (.act upd k) ∧ m' = m ∧ pc' = .wrapData cb (k e) ∧ e' = upd e) ∨
    (∃ cb w, pc = .wrapData cb (.ret w) ∧ (m', pc') = m.storeWrapper key w ∧ e' = e) ∨
    (∃ x, m' = m ∧ pc' = .raised x ∧ e' = e ∧
      ((∃ w, pc = .willReload w (.raise x)) ∨ ∃ cb, pc = .wrapData cb (.raise x))) := by
  match pc with
  | .willReload w (.act upd k) => cases h; exact .inl ⟨w, upd, k, rfl, rfl, rfl, rfl⟩
  | .willReload w (.ret true) => cases h; exact .inr (.inl ⟨w, rfl, rfl, rfl⟩)
  | .willReload w (.ret false) => cases h; exact .inr (.inr (.inl ⟨w, rfl, rfl, rfl, rfl⟩))
  | .willReload w (.raise x) =>
    cases h; exact .inr (.inr (.inr (.inr (.inr ⟨x, rfl, rfl, rfl, .inl ⟨w, rfl⟩⟩))))
  | .wrapData cb (.act upd k) => cases h; exact .inr (.inr (.inr (.inl ⟨cb, upd, k, rfl, rfl, rfl, rfl⟩)))
  | .wrapData cb (.ret w) => cases h; exact .inr (.inr (.inr (.inr (.inl ⟨cb, w, rfl, rfl, rfl⟩))))
  | .wrapData cb (.raise x) =>
    cases h; exact .inr (.inr (.inr (.inr (.inr ⟨x, rfl, rfl, rfl, .inr ⟨cb, rfl⟩⟩))))
  | .returned r => cases h
  | .raised x => cases h

@[simp] theorem getData_cacheMap (m : BaseCacheManager κ δ τ β γ) (key : κ) (w : Option β) (g : Option γ) :
    (m.getData cls key w g).1.cacheMap = m.cacheMap := by
  unfold BaseCacheManager.getData
  dsimp only
  split <;> rfl

theorem getData_wrapDataCallback (m : BaseCacheManager κ δ τ β γ) (key : κ) (w : Option β) (g : Option γ) :
    (m.getData cls key w g).1.wrapDataCallback = some (w.getD cls.wrapData) := by
  unfold BaseCacheManager.getData
  dsimp only
  split <;> rfl

/-- A call begins by awaiting `will_reload` on the entry of its key, or its wrap callback. -/
theorem getData_pc (m : BaseCacheManager κ δ τ β γ) (key : κ) (w : Option β) (g : Option γ) :
    (m.getData cls key w g).2 = match m.cacheMap.get? key with
      | some wrapper => .willReload wrapper (cls.will (g.getD cls.willReload) wrapper key)
      | none => .wrapData (w.getD cls.wrapData) (cls.wrap (w.getD cls.wrapData) key) := by
  unfold BaseCacheManager.getData
  dsimp only
  cases m.cacheMap.get? key <;> rfl

/-- A step begins a call, or leaves the keys and arguments of the calls as they are. -/
theorem calls_step {a : Label κ β γ ι α} (h : step cls worldStep s a = some s') {i : ι}
    {c : Call κ δ τ ε χ β γ} (hc : s'.calls i = some c) :
    a = .begin i c.key c.wrapDataCallback c.willReloadCallback ∨
    ∃ d, s.calls i = some d ∧ c.key = d.key ∧ c.wrapDataCallback = d.wrapDataCallback ∧
      c.willReloadCallback = d.willReloadCallback := by
  cases a with
  | begin j key w g =>
    obtain ⟨-, rfl⟩ := step_begin h
    simp only [Function.update_apply] at hc
    -- the call in question is the one that begins, or another one
    split at hc
    · rename_i hij; cases hc; subst hij; exact .inl rfl
    · exact .inr ⟨c, hc, rfl, rfl, rfl⟩
  | resume j =>
    obtain ⟨d, m, pc, e, hd, -, rfl⟩ := step_resume h
    simp only [proceed, Function.update_apply] at hc
    split at hc
    · rename_i hij; cases hc; subst hij; exact .inr ⟨d, hd, rfl, rfl, rfl⟩
    · exact .inr ⟨c, hc, rfl, rfl, rfl⟩
  | world a =>
    obtain ⟨e, -, rfl⟩ := step_world h
    exact .inr ⟨c, hc, rfl, rfl, rfl⟩

/-- Every call of a reached state was begun in the run, with its key and arguments. -/
theorem begin_mem_of_run {e : ε} {as : List (Label κ β γ ι α)}
    (h : run (step cls worldStep) (init e) as = some s) {i : ι} {c : Call κ δ τ ε χ β γ}
    (hc : s.calls i = some c) : .begin i c.key c.wrapDataCallback c.willReloadCallback ∈ as := by
  have hok : StepsOk (step cls worldStep) (fun _ a => a ∈ as) (init e) as := stepsOk_of_forall (fun a ha _ => ha) _
  refine run_invariant (I := fun t => ∀ i c, t.calls i = some c →
    Label.begin i c.key c.wrapDataCallback c.willReloadCallback ∈ as) ?_ (fun _ _ h => by cases h) hok h i c hc
  intro t a t' ht ha hs j d hd
  rcases calls_step hs hd with rfl | ⟨d', hd', hk, hw, hg⟩
  · exact ha
  · rw [hk, hw, hg]; exact ht j d' hd'

/-! ## Callbacks that only read -/

/-- The callback a call awaits only reads the world. -/
def ReadsOnly : Pc δ τ ε χ β → Prop
  | .willReload _ co => co.ReadOnly
  | .wrapData _ co => co.ReadOnly
  | _ => True

/-- All callbacks of the class only read the world. -/
structure ReadOnlyClass (cls : CacheClass κ δ τ ε χ β γ) : Prop where
  wrap : ∀ cb key, (cls.wrap cb key).ReadOnly
  will : ∀ g w key, (cls.will g w key).ReadOnly

theorem readsOnly_getData (h : ReadOnlyClass cls) (m : BaseCacheManager κ δ τ β γ) (key : κ) (w : Option β)
    (g : Option γ) : ReadsOnly (m.getData cls key w g).2 := by
  rw [getData_pc]
  split
  · exact h.will _ _ _
  · exact h.wrap _ _

theorem readsOnly_resume (h : ReadOnlyClass cls) {m m' : BaseCacheManager κ δ τ β γ} {key : κ} {e e' : ε}
    {pc pc' : Pc δ τ ε χ β} (hpc : ReadsOnly pc) (hr : m.resume cls key e pc = some (m', pc', e')) :
    ReadsOnly pc' ∧ e' = e := by
  obtain ⟨w, upd, k, rfl, -, rfl, rfl⟩ | ⟨w, rfl, hm, rfl⟩ | ⟨w, rfl, -, rfl, rfl⟩ | ⟨cb, upd, k, rfl, -, rfl, rfl⟩ |
    ⟨cb, w, rfl, hm, rfl⟩ | ⟨x, -, rfl, rfl, -⟩ := resume_cases hr
  · obtain ⟨rfl, hk⟩ := Coro.ReadOnly.upd hpc; exact ⟨hk e, rfl⟩
  · cases hm; exact ⟨h.wrap _ _, rfl⟩
  · exact ⟨trivial, rfl⟩
  · obtain ⟨rfl, hk⟩ := Coro.ReadOnly.upd hpc; exact ⟨hk e, rfl⟩
  · cases w <;> cases hm <;> exact ⟨trivial, rfl⟩
  · exact ⟨trivial, rfl⟩

/-- Calls that await read-only callbacks. -/
def CallsRead (s : System κ δ τ ε χ β γ ι) : Prop := ∀ i c, s.calls i = some c → ReadsOnly c.pc

theorem callsRead_step (h : ReadOnlyClass cls) {a : Label κ β γ ι α} (hs : CallsRead s)
    (hstep : step cls worldStep s a = some s') : CallsRead s' := by
  intro i c hc
  cases a with
  | begin j key w g =>
    obtain ⟨-, rfl⟩ := step_begin hstep
    simp only [Function.update_apply] at hc
    split at hc
    · cases hc; exact readsOnly_getData h _ _ _ _
    · exact hs i c hc
  | resume j =>
    obtain ⟨d, m, pc, e, hd, hr, rfl⟩ := step_resume hstep
    simp only [proceed, Function.update_apply] at hc
    split at hc
    · cases hc; exact (readsOnly_resume h (hs j d hd) hr).1
    · exact hs i c hc
  | world a =>
    obtain ⟨e, -, rfl⟩ := step_world hstep
    exact hs i c hc

/-- Only a step of the world changes the world. -/
theorem world_step (h : ReadOnlyClass cls) {a : Label κ β γ ι α} (hs : CallsRead s)
    (hstep : step cls worldStep s a = some s') (ha : ∀ b, a ≠ .world b) : s'.world = s.world := by
  cases a with
  | begin j key w g => obtain ⟨-, rfl⟩ := step_begin hstep; rfl
  | resume j =>
    obtain ⟨d, m, pc, e, hd, hr, rfl⟩ := step_resume hstep
    exact (readsOnly_resume h (hs j d hd) hr).2
  | world b => exact absurd rfl (ha b)

end System

end GoodGoodStudy.Dali
