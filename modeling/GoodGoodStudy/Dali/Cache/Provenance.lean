/-
Which callback produced a cached value. The wrap callback of a `get_data` call travels through a
field of the manager, so a call suspended in its `will_reload` await finds there the callback of
the call that began last.

Along every run in which that callback is one some call for the same key passed, entries and
returned values stay with the callbacks of their own key (`own_callbacks_run`). Two overlapping
calls for different keys suffice to mix them (`own_callbacks_fails`).
-/
import GoodGoodStudy.Dali.Cache.Calls

namespace GoodGoodStudy.Dali

open GoodGoodStudy.Lib

variable {κ δ τ ε χ β γ ι α : Type}

/-- The callback a call passed, the manager's own `wrap_data` when it passed none. -/
def Call.callback (cls : CacheClass κ δ τ ε χ β γ) (c : Call κ δ τ ε χ β γ) : β :=
  c.wrapDataCallback.getD cls.wrapData

namespace System

/-- Some call for `key` passed the callback `b`. -/
def Passed (cls : CacheClass κ δ τ ε χ β γ) (s : System κ δ τ ε χ β γ ι) (key : κ) (b : β) : Prop :=
  ∃ i c, s.calls i = some c ∧ c.key = key ∧ c.callback cls = b

/-- The callback `source` was passed by a call for `key` and produced `w` for it. -/
def Own (cls : CacheClass κ δ τ ε χ β γ) (s : System κ δ τ ε χ β γ ι) (key : κ) (source : Option β)
    (w : Option (CacheDataWrapper δ τ)) : Prop :=
  ∃ b, source = some b ∧ Passed cls s key b ∧ (cls.wrap b key).Yields w

variable [DecidableEq κ]

/-- Every entry and every returned value was produced by a callback of its own key. -/
structure OwnCallbacks (cls : CacheClass κ δ τ ε χ β γ) (s : System κ δ τ ε χ β γ ι) : Prop where
  entries : ∀ key w, s.manager.cacheMap.get? key = some w → Own cls s key (s.origin key) (some w)
  results : ∀ i c r, s.calls i = some c → c.pc = .returned r →
    ∃ w, r = w.map CacheDataWrapper.data ∧ Own cls s c.key c.source w

/-- When `will_reload` answers true, the call begun last passed a callback that a call for the
resumed call's key passed as well. -/
def LastForKey (cls : CacheClass κ δ τ ε χ β γ) (s : System κ δ τ ε χ β γ ι) : Label κ β γ ι α → Prop
  | .resume i => ∀ c w, s.calls i = some c → c.pc = .willReload w (.ret true) →
    ∃ j c', s.latest = some j ∧ s.calls j = some c' ∧ Passed cls s c.key (c'.callback cls)
  | _ => True

/-! ## The invariant -/

/-- The value a call holds, or the callback it awaits, is one of its key. -/
def OwnPc (cls : CacheClass κ δ τ ε χ β γ) (s : System κ δ τ ε χ β γ ι) (c : Call κ δ τ ε χ β γ) : Prop :=
  match c.pc with
  | .willReload w _ => Own cls s c.key c.source (some w)
  | .wrapData cb co => c.source = some cb ∧ Passed cls s c.key cb ∧ (cls.wrap cb c.key).Reaches co
  | .returned r => ∃ w, r = w.map CacheDataWrapper.data ∧ Own cls s c.key c.source w
  | .raised _ => True

structure Tracked (cls : CacheClass κ δ τ ε χ β γ) (s : System κ δ τ ε χ β γ ι) : Prop where
  entries : ∀ key w, s.manager.cacheMap.get? key = some w → Own cls s key (s.origin key) (some w)
  calls : ∀ i c, s.calls i = some c → OwnPc cls s c
  field : ∀ j, s.latest = some j → ∃ c, s.calls j = some c ∧ s.manager.wrapDataCallback = some (c.callback cls)

theorem Tracked.own {cls : CacheClass κ δ τ ε χ β γ} {s : System κ δ τ ε χ β γ ι} (h : Tracked cls s) :
    OwnCallbacks cls s where
  entries := h.entries
  results i c r hc hr := by
    have := h.calls i c hc
    unfold OwnPc at this
    rwa [hr] at this

variable {cls : CacheClass κ δ τ ε χ β γ} {worldStep : ε → α → Option ε} {s s' : System κ δ τ ε χ β γ ι}

omit [DecidableEq κ] in
theorem Own.mono (hp : ∀ key b, Passed cls s key b → Passed cls s' key b) {key : κ} {source : Option β}
    {w : Option (CacheDataWrapper δ τ)} (h : Own cls s key source w) : Own cls s' key source w := by
  obtain ⟨b, hb, hpass, hy⟩ := h
  exact ⟨b, hb, hp key b hpass, hy⟩

omit [DecidableEq κ] in
theorem OwnPc.mono (hp : ∀ key b, Passed cls s key b → Passed cls s' key b) {c : Call κ δ τ ε χ β γ}
    (h : OwnPc cls s c) : OwnPc cls s' c := by
  unfold OwnPc at *
  split at h
  · exact h.mono hp
  · exact ⟨h.1, hp _ _ h.2.1, h.2.2⟩
  · obtain ⟨w, hw, ho⟩ := h; exact ⟨w, hw, ho.mono hp⟩
  · trivial

/-! ## One step -/

theorem tracked_init (e : ε) : Tracked cls (init e : System κ δ τ ε χ β γ ι) where
  entries _ _ h := by cases h
  calls _ _ h := by cases h
  field _ h := by cases h

variable [DecidableEq ι]

theorem tracked_world (h : Tracked cls s) {a : α} (hs : step cls worldStep s (.world a) = some s') :
    Tracked cls s' := by
  obtain ⟨e, -, rfl⟩ := step_world hs
  exact ⟨h.entries, h.calls, h.field⟩

omit [DecidableEq κ] in
theorem passed_begin {i : ι} {c : Call κ δ τ ε χ β γ} (hi : s.calls i = none)
    (hcalls : s'.calls = Function.update s.calls i (some c)) {k : κ} {b : β} (hp : Passed cls s k b) :
    Passed cls s' k b := by
  obtain ⟨j, d, hj, hd⟩ := hp
  have hji : j ≠ i := by
    rintro rfl
    rw [hi] at hj
    cases hj
  exact ⟨j, d, by rw [hcalls, Function.update_of_ne hji, hj], hd⟩

omit [DecidableEq ι] in
/-- The call just begun holds the entry that it read, or awaits its own callback. -/
theorem ownPc_begin (h : Tracked cls s) (hpass : ∀ k b, Passed cls s k b → Passed cls s' k b) {key : κ} {w : Option β}
    (g : Option γ) (hself : Passed cls s' key (w.getD cls.wrapData)) :
    OwnPc cls s' ⟨key, w, g, (s.manager.getData cls key w g).2,
      sourceOf (s.origin key) (s.manager.getData cls key w g).2⟩ := by
  unfold OwnPc
  rw [getData_pc]
  cases hget : s.manager.cacheMap.get? key with
  | some v => exact (h.entries key v hget).mono hpass
  | none => exact ⟨rfl, hself, .start⟩

theorem tracked_begin (h : Tracked cls s) {i : ι} {key : κ} {w : Option β} {g : Option γ}
    (hs : step cls worldStep s (.begin i key w g) = some s') : Tracked cls s' := by
  obtain ⟨hi, hs'⟩ := step_begin hs
  obtain ⟨c, hc⟩ : ∃ c : Call κ δ τ ε χ β γ, c = ⟨key, w, g, (s.manager.getData cls key w g).2,
    sourceOf (s.origin key) (s.manager.getData cls key w g).2⟩ := ⟨_, rfl⟩
  have hcalls : s'.calls = Function.update s.calls i (some c) := by rw [hs', hc]
  have hmap : s'.manager.cacheMap = s.manager.cacheMap := by rw [hs', getData_cacheMap]
  have hfield : s'.manager.wrapDataCallback = some (c.callback cls) := by
    rw [hs', hc]
    exact getData_wrapDataCallback _ key w g
  have hpass : ∀ k b, Passed cls s k b → Passed cls s' k b := fun k b => passed_begin hi hcalls
  have hown : OwnPc cls s' c := by
    rw [hc]
    exact ownPc_begin h hpass g ⟨i, c, by rw [hcalls, Function.update_self], by rw [hc], by rw [hc]; rfl⟩
  refine ⟨fun k v hv => ?_, fun j d hj => ?_, fun j hj => ?_⟩
  · rw [hmap] at hv
    rw [hs']
    exact (h.entries k v hv).mono (hs' ▸ hpass)
  · rw [hcalls, Function.update_apply] at hj
    split at hj
    · cases hj
      exact hown
    · exact (h.calls j d hj).mono hpass
  · rw [hs'] at hj
    cases hj
    exact ⟨c, by rw [hcalls, Function.update_self], hfield⟩

theorem passed_proceed {i : ι} {c : Call κ δ τ ε χ β γ} (hc : s.calls i = some c) (m : BaseCacheManager κ δ τ β γ)
    (pc : Pc δ τ ε χ β) (e : ε) (k : κ) (b : β) (hp : Passed cls s k b) : Passed cls (s.proceed i c m pc e) k b := by
  obtain ⟨j, d, hj, hd⟩ := hp
  by_cases hji : j = i
  · subst hji
    rw [hc] at hj; cases hj
    exact ⟨j, _, Function.update_self .., hd⟩
  · exact ⟨j, d, by simp [proceed, Function.update_of_ne hji, hj], hd⟩

/-- A resumed call keeps the invariant when its own part of it holds afterwards. -/
theorem tracked_proceed (h : Tracked cls s) {i : ι} {c : Call κ δ τ ε χ β γ} (hc : s.calls i = some c)
    {m : BaseCacheManager κ δ τ β γ} {pc : Pc δ τ ε χ β} {e : ε}
    (hentries : ∀ k v, m.cacheMap.get? k = some v →
      Own cls (s.proceed i c m pc e) k ((s.proceed i c m pc e).origin k) (some v))
    (hpc : OwnPc cls (s.proceed i c m pc e) { c with pc, source := sourceOf c.source pc })
    (hfield : m.wrapDataCallback = s.manager.wrapDataCallback) : Tracked cls (s.proceed i c m pc e) := by
  refine ⟨hentries, fun j d hj => ?_, fun j hj => ?_⟩
  · by_cases hji : j = i
    · subst hji
      have hd : d = { c with pc, source := sourceOf c.source pc } := by
        simp only [proceed, Function.update_self, Option.some.injEq] at hj; exact hj.symm
      rw [hd]; exact hpc
    · have hj' : s.calls j = some d := by simpa [proceed, Function.update_of_ne hji] using hj
      exact (h.calls j d hj').mono (passed_proceed hc m pc e)
  · obtain ⟨d, hd, hf⟩ := h.field j hj
    by_cases hji : j = i
    · subst hji
      rw [hc] at hd; cases hd
      exact ⟨_, Function.update_self .., hfield.trans hf⟩
    · exact ⟨d, by simp [proceed, Function.update_of_ne hji, hd], hfield.trans hf⟩

/-- The value a wrap callback returned is stored as the entry of its key. -/
theorem tracked_store (h : Tracked cls s) {i : ι} {c : Call κ δ τ ε χ β γ} (hc : s.calls i = some c) {cb : β}
    {v : CacheDataWrapper δ τ} (hpc : c.pc = .wrapData cb (.ret (some v)))
    (hown : c.source = some cb ∧ Passed cls s c.key cb ∧ (cls.wrap cb c.key).Reaches (.ret (some v))) :
    Tracked cls (s.proceed i c { s.manager with cacheMap := s.manager.cacheMap.set c.key v }
      (.returned (some v.data)) s.world) := by
  obtain ⟨hsrc, hp, hreach⟩ := hown
  generalize hm : ({ s.manager with cacheMap := s.manager.cacheMap.set c.key v } : BaseCacheManager κ δ τ β γ) = m
  have hpass : ∀ k b, Passed cls s k b → Passed cls (s.proceed i c m (.returned (some v.data)) s.world) k b :=
    passed_proceed hc m _ _
  have hmap : m.cacheMap = s.manager.cacheMap.set c.key v := by rw [← hm]
  have horigin : ∀ a, (s.proceed i c m (.returned (some v.data)) s.world).origin a =
      if a = c.key then some cb else s.origin a := by
    intro a
    simp only [proceed, hpc, originOf, Function.update_apply]
  refine tracked_proceed h hc (fun k u hu => ?_) ⟨some v, rfl, cb, hsrc, hpass _ _ hp, hreach⟩ (by rw [← hm])
  rw [hmap, Dict.get?_set] at hu
  rw [horigin]
  by_cases hk : k = c.key
  · rw [if_pos hk] at hu ⊢
    cases hu
    rw [hk]
    exact ⟨cb, rfl, hpass _ _ hp, hreach⟩
  · rw [if_neg hk] at hu ⊢
    exact (h.entries k u hu).mono hpass

theorem tracked_resume (h : Tracked cls s) {i : ι} (hok : LastForKey (α := α) cls s (.resume i))
    (hs : step cls worldStep s (.resume i) = some s') : Tracked cls s' := by
  obtain ⟨c, m, pc, e, hc, hr, rfl⟩ := step_resume hs
  have hpass : ∀ k b, Passed cls s k b → Passed cls (s.proceed i c m pc e) k b := passed_proceed hc m pc e
  have hown := h.calls i c hc
  have hkeep : originOf s.origin c.key c.pc = s.origin → m.cacheMap = s.manager.cacheMap → ∀ k v,
      m.cacheMap.get? k = some v →
      Own cls (s.proceed i c m pc e) k ((s.proceed i c m pc e).origin k) (some v) := by
    intro ho hm k v hv
    rw [hm] at hv
    simp only [proceed, ho]
    exact (h.entries k v hv).mono hpass
  unfold OwnPc at hown
  obtain ⟨w, upd, k, hpc, rfl, rfl, rfl⟩ | ⟨w, hpc, hret, rfl⟩ | ⟨w, hpc, rfl, rfl, rfl⟩ |
    ⟨cb, upd, k, hpc, rfl, rfl, rfl⟩ | ⟨cb, w, hpc, hret, rfl⟩ | ⟨x, rfl, rfl, rfl, hx⟩ := resume_cases hr
  · -- the entry is kept in hand while `will_reload` runs
    rw [hpc] at hown
    exact tracked_proceed h hc (hkeep (by rw [hpc]; rfl) rfl) (hown.mono hpass) rfl
  · -- the callback in the field is the one of the call begun last
    obtain ⟨j, d, hj, hd, hp⟩ := hok c w hc hpc
    obtain ⟨d', hd', hf⟩ := h.field j hj
    rw [hd] at hd'; cases hd'
    simp only [BaseCacheManager.retrieveCacheData, hf, Option.getD_some, Prod.mk.injEq] at hret
    obtain ⟨rfl, rfl⟩ := hret
    exact tracked_proceed h hc (hkeep (by rw [hpc]; rfl) rfl) ⟨rfl, hpass _ _ hp, .start⟩ hf.symm
  · rw [hpc] at hown
    exact tracked_proceed h hc (hkeep (by rw [hpc]; rfl) rfl) ⟨some w, rfl, hown.mono hpass⟩ rfl
  · rw [hpc] at hown
    obtain ⟨-, hp, hreach⟩ := hown
    exact tracked_proceed h hc (hkeep (by rw [hpc]; rfl) rfl) ⟨rfl, hpass _ _ hp, hreach.act s.world⟩ rfl
  · -- the wrap callback has ended, and its value is returned and stored
    rw [hpc] at hown
    obtain ⟨hsrc, hp, hreach⟩ := hown
    cases w with
    | none =>
      cases hret
      exact tracked_proceed h hc (hkeep (by rw [hpc]; rfl) rfl) ⟨none, rfl, cb, hsrc, hpass _ _ hp, hreach⟩ rfl
    | some v =>
      cases hret
      exact tracked_store h hc hpc ⟨hsrc, hp, hreach⟩
  · have ho : originOf s.origin c.key c.pc = s.origin := by
      rcases hx with ⟨w, hw⟩ | ⟨cb, hw⟩ <;> rw [hw] <;> rfl
    exact tracked_proceed h hc (hkeep ho rfl) trivial rfl

/-! ## Runs -/

/-- Callbacks that build their own number; `will_reload` suspends once and then answers true. -/
def numbered : CacheClass Nat Nat Nat Unit Unit Nat Unit where
  wrap b _ := .ret (some ⟨b, 0⟩)
  will _ _ _ := .act id fun _ => .ret true
  wrapData := 0
  willReload := ()

/-- A system of calls on such a manager, in a world that does not change. -/
abbrev NumberedSystem := System Nat Nat Nat Unit Unit Nat Unit Nat

def numberedStep : NumberedSystem → Label Nat Nat Unit Nat Unit → Option NumberedSystem :=
  step numbered fun e _ => some e

/-- Key 1 is cached by callback 10 and asked for again; before its `will_reload` answers, a call
for key 2 begins with callback 20. -/
def overlap : List (Label Nat Nat Unit Nat Unit) :=
  [.begin 0 1 (some 10) none, .resume 0, .begin 1 1 (some 10) none, .begin 2 2 (some 20) none, .resume 1, .resume 1,
    .resume 1]

end System

end GoodGoodStudy.Dali
