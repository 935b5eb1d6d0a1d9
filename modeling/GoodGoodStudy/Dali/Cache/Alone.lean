/-
A `get_data` call that runs to its end with nothing else happening: `runGetData` says what it does
to the manager and what it answers, and `getData_alone` that this is what the interleaved system
does when it resumes only that call.
-/
import GoodGoodStudy.Dali.Cache.Calls

namespace GoodGoodStudy.Dali

open GoodGoodStudy.Lib

namespace BaseCacheManager

variable {κ δ τ ε χ β γ : Type} [DecidableEq κ]

/-- The await of a wrap callback and what follows it. -/
def runWrap (m : BaseCacheManager κ δ τ β γ) (key : κ) (co : Coro ε χ (Option (CacheDataWrapper δ τ))) (e : ε) :
    BaseCacheManager κ δ τ β γ × Except χ (Option δ) × ε :=
  match co.exec e with
  | (.ok (some wrapper), e) => ({ m with cacheMap := m.cacheMap.set key wrapper }, .ok (some wrapper.data), e)
  | (.ok none, e) => (m, .ok none, e)
  | (.error x, e) => (m, .error x, e)

/-- `retrieve_cache_data`, alone. -/
def runRetrieve (cls : CacheClass κ δ τ ε χ β γ) (m : BaseCacheManager κ δ τ β γ) (key : κ) (e : ε) :
    BaseCacheManager κ δ τ β γ × Except χ (Option δ) × ε :=
  let callback := m.wrapDataCallback.getD cls.wrapData
  { m with wrapDataCallback := some callback }.runWrap key (cls.wrap callback key) e

/-- The await of `will_reload` and what follows it. -/
def runReload (cls : CacheClass κ δ τ ε χ β γ) (m : BaseCacheManager κ δ τ β γ) (key : κ)
    (wrapper : CacheDataWrapper δ τ) (co : Coro ε χ Bool) (e : ε) :
    BaseCacheManager κ δ τ β γ × Except χ (Option δ) × ε :=
  match co.exec e with
  | (.ok true, e) => m.runRetrieve cls key e
  | (.ok false, e) => (m, .ok (some wrapper.data), e)
  | (.error x, e) => (m, .error x, e)

/-- `get_data`, alone. -/
def runGetData (cls : CacheClass κ δ τ ε χ β γ) (m : BaseCacheManager κ δ τ β γ) (key : κ)
    (wrapDataCallback : Option β) (willReloadCallback : Option γ) (e : ε) :
    BaseCacheManager κ δ τ β γ × Except χ (Option δ) × ε :=
  let willReload := willReloadCallback.getD cls.willReload
  let m := { m with
    wrapDataCallback := some (wrapDataCallback.getD cls.wrapData)
    willReloadCallback := some willReload }
  match m.cacheMap.get? key with
  | some wrapper => m.runReload cls key wrapper (cls.will willReload wrapper key) e
  | none => m.runRetrieve cls key e

/-- Where a call ends with an answer. -/
def ended : Except χ (Option δ) → Pc δ τ ε χ β
  | .ok r => .returned r
  | .error x => .raised x

end BaseCacheManager

namespace System

variable {κ δ τ ε χ β γ ι α : Type} [DecidableEq κ] [DecidableEq ι] {cls : CacheClass κ δ τ ε χ β γ}
  {worldStep : ε → α → Option ε}

/-- The system after call `i`, alone, came to an end. -/
structure Finished (s : System κ δ τ ε χ β γ ι) (i : ι)
    (r : BaseCacheManager κ δ τ β γ × Except χ (Option δ) × ε) : Prop where
  manager : s.manager = r.1
  world : s.world = r.2.2
  call : ∃ c, s.calls i = some c ∧ c.pc = BaseCacheManager.ended r.2.1

/-- Resuming call `i` some number of times leads to `s'`. -/
def Resumes (cls : CacheClass κ δ τ ε χ β γ) (worldStep : ε → α → Option ε) (s : System κ δ τ ε χ β γ ι) (i : ι)
    (s' : System κ δ τ ε χ β γ ι) : Prop :=
  ∃ n, run (step cls worldStep) s (List.replicate n (.resume i)) = some s'

theorem Resumes.step {s s₁ s' : System κ δ τ ε χ β γ ι} {i : ι} {c : Call κ δ τ ε χ β γ}
    (hc : s.calls i = some c) {m : BaseCacheManager κ δ τ β γ} {pc : Pc δ τ ε χ β} {e : ε}
    (hr : s.manager.resume cls c.key s.world c.pc = some (m, pc, e)) (h₁ : s₁ = s.proceed i c m pc e)
    (h : Resumes cls worldStep s₁ i s') : Resumes cls worldStep s i s' := by
  obtain ⟨n, hn⟩ := h
  refine ⟨n + 1, run_cons_some.2 ⟨s₁, ?_, hn⟩⟩
  simp [System.step, hc, hr, h₁, proceed]

variable (cls worldStep) in
/-- An awaited wrap callback runs to its end. -/
theorem wrapData_alone {i : ι} {key : κ} {cb : β} (co : Coro ε χ (Option (CacheDataWrapper δ τ)))
    {s : System κ δ τ ε χ β γ ι} {c : Call κ δ τ ε χ β γ} (hc : s.calls i = some c) (hkey : c.key = key)
    (hpc : c.pc = .wrapData cb co) :
    ∃ s', Resumes cls worldStep s i s' ∧ s'.Finished i (s.manager.runWrap key co s.world) := by
  induction co generalizing s c with
  | ret w =>
    cases w with
    | none =>
      exact ⟨_, .step hc (by rw [hpc]; rfl) rfl ⟨0, rfl⟩, rfl, rfl, _, Function.update_self .., rfl⟩
    | some w =>
      exact ⟨_, .step hc (by rw [hpc]; rfl) rfl ⟨0, rfl⟩, by rw [hkey]; rfl, rfl, _, Function.update_self .., rfl⟩
  | raise x => exact ⟨_, .step hc (by rw [hpc]; rfl) rfl ⟨0, rfl⟩, rfl, rfl, _, Function.update_self .., rfl⟩
  | act upd k ih =>
    obtain ⟨s', hs, hfin⟩ := ih s.world (s := s.proceed i c s.manager (.wrapData cb (k s.world)) (upd s.world))
      (Function.update_self ..) hkey rfl
    exact ⟨s', .step hc (by rw [hpc]; rfl) rfl hs, hfin⟩

variable (cls worldStep) in
/-- An awaited `will_reload` callback runs to its end, and the call with it. -/
theorem willReload_alone {i : ι} {key : κ} {w : CacheDataWrapper δ τ} (co : Coro ε χ Bool)
    {s : System κ δ τ ε χ β γ ι} {c : Call κ δ τ ε χ β γ} (hc : s.calls i = some c) (hkey : c.key = key)
    (hpc : c.pc = .willReload w co) :
    ∃ s', Resumes cls worldStep s i s' ∧ s'.Finished i (s.manager.runReload cls key w co s.world) := by
  induction co generalizing s c with
  | ret reload =>
    cases reload with
    | false => exact ⟨_, .step hc (by rw [hpc]; rfl) rfl ⟨0, rfl⟩, rfl, rfl, _, Function.update_self .., rfl⟩
    | true =>
      have hr : s.manager.resume cls c.key s.world c.pc = some ((s.manager.retrieveCacheData cls key).1,
          (s.manager.retrieveCacheData cls key).2, s.world) := by rw [hpc, ← hkey]; rfl
      obtain ⟨s', hs, hfin⟩ := wrapData_alone cls worldStep
        (s := s.proceed i c _ _ s.world) _ (Function.update_self ..) hkey rfl
      exact ⟨s', .step hc hr rfl hs, hfin⟩
  | raise x => exact ⟨_, .step hc (by rw [hpc]; rfl) rfl ⟨0, rfl⟩, rfl, rfl, _, Function.update_self .., rfl⟩
  | act upd k ih =>
    obtain ⟨s', hs, hfin⟩ := ih s.world (s := s.proceed i c s.manager (.willReload w (k s.world)) (upd s.world))
      (Function.update_self ..) hkey rfl
    exact ⟨s', .step hc (by rw [hpc]; rfl) rfl hs, hfin⟩

/-- A call begun and then resumed alone does to the manager and the world what `runGetData` says,
and ends with its answer. -/
theorem getData_alone (s : System κ δ τ ε χ β γ ι) {i : ι} (hi : s.calls i = none) (key : κ) (w : Option β)
    (g : Option γ) :
    ∃ n s', run (step cls worldStep) s (.begin i key w g :: List.replicate n (.resume i)) = some s' ∧
      s'.Finished i (s.manager.runGetData cls key w g s.world) := by
  have hstep : ∃ s₁, step cls worldStep s (.begin i key w g) = some s₁ ∧ s₁.world = s.world ∧
      s₁.manager = (s.manager.getData cls key w g).1 ∧ ∃ c, s₁.calls i = some c ∧ c.key = key ∧
        c.pc = (s.manager.getData cls key w g).2 := by
    simp only [step, hi]
    exact ⟨_, rfl, rfl, rfl, _, Function.update_self .., rfl, rfl⟩
  obtain ⟨s₁, h₁, hw, hm, c, hc, hkey, hpc⟩ := hstep
  have hfin : ∃ s', Resumes cls worldStep s₁ i s' ∧ s'.Finished i (s.manager.runGetData cls key w g s.world) := by
    unfold BaseCacheManager.getData at hm hpc
    unfold BaseCacheManager.runGetData
    cases hget : s.manager.cacheMap.get? key with
    | none =>
      simp only [hget] at hm hpc ⊢
      obtain ⟨s', hs, hfin⟩ := wrapData_alone cls worldStep _ hc hkey hpc
      rw [hw, hm] at hfin
      exact ⟨s', hs, hfin⟩
    | some wrapper =>
      simp only [hget] at hm hpc ⊢
      obtain ⟨s', hs, hfin⟩ := willReload_alone cls worldStep _ hc hkey hpc
      rw [hw, hm] at hfin
      exact ⟨s', hs, hfin⟩
  obtain ⟨s', ⟨n, hn⟩, hfin⟩ := hfin
  exact ⟨n, s', run_cons_some.2 ⟨s₁, h₁, hn⟩, hfin⟩

end System

end GoodGoodStudy.Dali
