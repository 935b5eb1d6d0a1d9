/-
Loops and recursive functions that need not end. They are given with fuel: `none` says that the fuel
was used up. `Returns f r` says that enough fuel makes `f` give `r`, and `Diverges f` that no fuel is
enough; the rules build the one from the parts of a program, and the other from a set of states that
a loop does not leave.
-/
import Mathlib.Data.List.Forall2
import Mathlib.Order.Lattice
import Mathlib.Order.Nat
import Mathlib.Order.WellFounded

namespace GoodGoodStudy.Lib

variable {σ ρ τ α : Type*}

/-! ## Programs with fuel -/

/-- With enough fuel the program returns `r`. -/
def Returns (f : Nat → Option ρ) (r : ρ) : Prop := ∃ n, ∀ fuel, n ≤ fuel → f fuel = some r

/-- No fuel is enough. -/
def Diverges (f : Nat → Option ρ) : Prop := ∀ fuel, f fuel = none

/-- What holds of one of the elements passed, when a loop has passed one more. -/
theorem exists_mem_concat {P : α → Prop} {l : List α} {a : α} : (∃ x ∈ l ++ [a], P x) ↔ (∃ x ∈ l, P x) ∨ P a := by
  simp only [List.mem_append, List.mem_singleton, or_and_right, exists_or, exists_eq_left]

/-- A `for` loop: what every round extends by the element that it passes holds of all of them in the end. A round knows
what came before its element, and what comes behind. -/
theorem foldl_split {f : σ → α → σ} {P : List α → σ → Prop} {all : List α}
    (hstep : ∀ pre a rest s, pre ++ a :: rest = all → P pre s → P (pre ++ [a]) (f s a)) :
    ∀ (l pre : List α) {s : σ}, pre ++ l = all → P pre s → P all (l.foldl f s)
  | [], pre, s, hall, hs => by
    rw [List.append_nil] at hall
    exact hall ▸ hs
  | a :: l, pre, s, hall, hs =>
    foldl_split hstep l (pre ++ [a]) (by rw [← hall, List.append_assoc]; rfl) (hstep pre a l s hall hs)

theorem foldl_mem {f : σ → α → σ} {P : List α → σ → Prop} (l : List α)
    (hstep : ∀ pre, ∀ a ∈ l, ∀ s, P pre s → P (pre ++ [a]) (f s a)) (pre : List α) {s : σ} (hs : P pre s) :
    P (pre ++ l) (l.foldl f s) :=
  foldl_split (P := fun pre' s => P (pre ++ pre') s)
    (fun pre' a rest s (hall : pre' ++ a :: rest = l) hs => by
      rw [← List.append_assoc]
      exact hstep (pre ++ pre') a (hall ▸ List.mem_append_right pre' List.mem_cons_self) s hs) l [] rfl
    (by rwa [List.append_nil])

/-- A `for` loop whose states are known in advance. -/
theorem foldlM_states {m : Type _ → Type _} [Monad m] [LawfulMonad m] {σ : Type _} {f : σ → ℕ → m σ} (state : ℕ → σ)
    (n : ℕ) (h : ∀ t < n, f (state t) t = Pure.pure (state (t + 1))) :
    (List.range n).foldlM f (state 0) = Pure.pure (state n) := by
  induction n with
  | zero => rfl
  | succ n ih =>
    rw [List.range_succ, List.foldlM_append, ih fun t ht => h t (Nat.lt_succ_of_lt ht), pure_bind, List.foldlM_cons,
      h n (Nat.lt_succ_self n), pure_bind]
    rfl

namespace Returns

theorem pure (r : ρ) : Returns (fun _ => some r) r := ⟨0, fun _ _ => rfl⟩

theorem unique {f : Nat → Option ρ} {r r' : ρ} (h : Returns f r) (h' : Returns f r') : r = r' := by
  obtain ⟨n, hn⟩ := h
  obtain ⟨m, hm⟩ := h'
  exact Option.some.inj ((hn _ (le_max_left n m)).symm.trans (hm _ (le_max_right n m)))

theorem not_diverges {f : Nat → Option ρ} {r : ρ} (h : Returns f r) : ¬ Diverges f := by
  intro hd
  obtain ⟨n, hn⟩ := h
  have h₁ := hn n le_rfl
  rw [hd n] at h₁
  cases h₁

/-- One program after the other. -/
theorem bind {f : Nat → Option ρ} {g : ρ → Nat → Option τ} {r : ρ} {t : τ} (hf : Returns f r)
    (hg : Returns (g r) t) : Returns (fun fuel => (f fuel).bind fun r => g r fuel) t := by
  obtain ⟨n, hn⟩ := hf
  obtain ⟨m, hm⟩ := hg
  refine ⟨max n m, fun fuel hfuel => ?_⟩
  simp only [hn fuel (le_trans (le_max_left n m) hfuel), Option.bind_some]
  exact hm fuel (le_trans (le_max_right n m) hfuel)

theorem map {f : Nat → Option ρ} {r : ρ} (g : ρ → τ) (hf : Returns f r) :
    Returns (fun fuel => (f fuel).map g) (g r) := by
  obtain ⟨n, hn⟩ := hf
  refine ⟨n, fun fuel hfuel => ?_⟩
  simp only [hn fuel hfuel, Option.map_some]

/-- A call that costs one unit of fuel. -/
theorem call {f g : Nat → Option ρ} {r : ρ} (h : ∀ fuel, f (fuel + 1) = g fuel) (hg : Returns g r) :
    Returns f r := by
  obtain ⟨n, hn⟩ := hg
  refine ⟨n + 1, fun fuel hfuel => ?_⟩
  obtain ⟨k, rfl⟩ : ∃ k, fuel = k + 1 := ⟨fuel - 1, by omega⟩
  rw [h k]
  exact hn k (by omega)

/-- A `for` loop: if every round returns and extends what holds of the elements passed so far, the loop
returns, and it holds of all elements. -/
theorem foldlM_mem {f : Nat → σ → α → Option σ} {P : List α → σ → Prop} :
    ∀ (l : List α), (∀ pre, ∀ a ∈ l, ∀ s, P pre s → ∃ s', Returns (fun fuel => f fuel s a) s' ∧ P (pre ++ [a]) s') →
      ∀ (pre : List α) {s : σ}, P pre s → ∃ s', Returns (fun fuel => l.foldlM (f fuel) s) s' ∧ P (pre ++ l) s'
  | [], _, pre, s, hs => ⟨s, Returns.pure s, by rwa [List.append_nil]⟩
  | a :: l, hstep, pre, s, hs => by
    obtain ⟨s₁, h₁, hs₁⟩ := hstep pre a List.mem_cons_self s hs
    obtain ⟨s₂, h₂, hs₂⟩ :=
      foldlM_mem l (fun pre b hb => hstep pre b (List.mem_cons_of_mem a hb)) (pre ++ [a]) hs₁
    refine ⟨s₂, h₁.bind h₂, ?_⟩
    rwa [List.append_assoc, List.singleton_append] at hs₂

theorem foldlM {f : Nat → σ → α → Option σ} {P : List α → σ → Prop}
    (hstep : ∀ pre a s, P pre s → ∃ s', Returns (fun fuel => f fuel s a) s' ∧ P (pre ++ [a]) s') (l pre : List α)
    {s : σ} (hs : P pre s) : ∃ s', Returns (fun fuel => l.foldlM (f fuel) s) s' ∧ P (pre ++ l) s' :=
  foldlM_mem l (fun pre a _ => hstep pre a) pre hs

/-- A `for` loop over the numbers up to a bound. -/
theorem foldlM_range {f : ℕ → σ → ℕ → Option σ} {P : ℕ → σ → Prop} (n : ℕ)
    (hstep : ∀ t < n, ∀ s, P t s → ∃ s', Returns (fun fuel => f fuel s t) s' ∧ P (t + 1) s') {s : σ} (hs : P 0 s) :
    ∃ s', Returns (fun fuel => (List.range n).foldlM (f fuel) s) s' ∧ P n s' := by
  induction n with
  | zero => exact ⟨s, Returns.pure s, hs⟩
  | succ n ih =>
    obtain ⟨s₁, h₁, hs₁⟩ := ih fun t ht => hstep t (Nat.lt_succ_of_lt ht)
    obtain ⟨s₂, h₂, hs₂⟩ := hstep n (Nat.lt_succ_self n) s₁ hs₁
    refine ⟨s₂, ?_, hs₂⟩
    simp only [List.range_succ, List.foldlM_append, List.foldlM_cons, List.foldlM_nil, bind_pure]
    exact h₁.bind (g := fun s fuel => f fuel s n) h₂

/-- A program for every element of a list. -/
theorem mapM {f : Nat → α → Option ρ} {Q : α → ρ → Prop} :
    ∀ {l : List α}, (∀ a ∈ l, ∃ r, Returns (fun fuel => f fuel a) r ∧ Q a r) →
      ∃ rs, Returns (fun fuel => l.mapM (f fuel)) rs ∧ List.Forall₂ Q l rs
  | [], _ => ⟨[], Returns.pure [], .nil⟩
  | a :: l, h => by
    obtain ⟨r, hr, hq⟩ := h a List.mem_cons_self
    obtain ⟨rs, hrs, hqs⟩ := mapM fun b hb => h b (List.mem_cons_of_mem a hb)
    refine ⟨r :: rs, ?_, .cons hq hqs⟩
    simp only [List.mapM_cons]
    exact hr.bind (hrs.bind (Returns.pure (r :: rs)))

/-- A program that needs no fuel. -/
theorem const_iff {o : Option ρ} {r : ρ} : Returns (fun _ => o) r ↔ o = some r :=
  ⟨fun ⟨n, h⟩ => h n le_rfl, fun h => ⟨0, fun _ _ => h⟩⟩

end Returns

/-- A `for` loop whose rounds need no fuel. -/
theorem exists_foldlM {f : σ → α → Option σ} {P : List α → σ → Prop} (l : List α)
    (hstep : ∀ pre, ∀ a ∈ l, ∀ s, P pre s → ∃ s', f s a = some s' ∧ P (pre ++ [a]) s') {s : σ} (hs : P [] s) :
    ∃ s', l.foldlM f s = some s' ∧ P l s' := by
  obtain ⟨s', h, hs'⟩ := Returns.foldlM_mem (f := fun _ => f) l (fun pre a ha s hs => by
    obtain ⟨s', h, hs'⟩ := hstep pre a ha s hs
    exact ⟨s', Returns.const_iff.2 h, hs'⟩) [] hs
  exact ⟨s', Returns.const_iff.1 h, hs'⟩

/-- A round that knows what came before its element, and what comes behind. -/
theorem exists_foldlM_split {f : σ → α → Option σ} {P : List α → σ → Prop} {all : List α}
    (hstep : ∀ pre a rest s, pre ++ a :: rest = all → P pre s → ∃ s', f s a = some s' ∧ P (pre ++ [a]) s') :
    ∀ (l pre : List α) {s : σ}, pre ++ l = all → P pre s → ∃ s', l.foldlM f s = some s' ∧ P all s'
  | [], pre, s, hall, hs => by
    rw [List.append_nil] at hall
    exact ⟨s, rfl, hall ▸ hs⟩
  | a :: l, pre, s, hall, hs => by
    obtain ⟨s₁, h₁, hs₁⟩ := hstep pre a l s hall hs
    obtain ⟨s₂, h₂, hs₂⟩ := exists_foldlM_split hstep l (pre ++ [a]) (by rw [← hall, List.append_assoc]; rfl) hs₁
    refine ⟨s₂, ?_, hs₂⟩
    rw [List.foldlM_cons, h₁]
    exact h₂

theorem exists_foldlM_range {f : σ → ℕ → Option σ} {P : ℕ → σ → Prop} (n : ℕ)
    (hstep : ∀ t < n, ∀ s, P t s → ∃ s', f s t = some s' ∧ P (t + 1) s') {s : σ} (hs : P 0 s) :
    ∃ s', (List.range n).foldlM f s = some s' ∧ P n s' := by
  obtain ⟨s', h, hs'⟩ := Returns.foldlM_range (f := fun _ => f) n (fun t ht s hs => by
    obtain ⟨s', h, hs'⟩ := hstep t ht s hs
    exact ⟨s', Returns.const_iff.2 h, hs'⟩) hs
  exact ⟨s', Returns.const_iff.1 h, hs'⟩

/-- A `for` loop over the numbers from `a` on. -/
theorem exists_foldlM_range' {f : σ → ℕ → Option σ} {P : ℕ → σ → Prop} (n a : ℕ)
    (hstep : ∀ t, a ≤ t → t < a + n → ∀ s, P t s → ∃ s', f s t = some s' ∧ P (t + 1) s') {s : σ} (hs : P a s) :
    ∃ s', (List.range' a n).foldlM f s = some s' ∧ P (a + n) s' := by
  induction n generalizing a s with
  | zero => exact ⟨s, rfl, hs⟩
  | succ n ih =>
    obtain ⟨s₁, h₁, hs₁⟩ := hstep a le_rfl (by omega) s hs
    obtain ⟨s₂, h₂, hs₂⟩ := ih (a + 1) (fun t hle hlt => hstep t (by omega) (by omega)) hs₁
    refine ⟨s₂, ?_, Nat.succ_add_eq_add_succ a n ▸ hs₂⟩
    rw [List.range'_succ, List.foldlM_cons, h₁]
    exact h₂

/-- A `for` loop over the numbers below a bound, from above. -/
theorem exists_foldlM_down {f : σ → ℕ → Option σ} {P : ℕ → σ → Prop} (n : ℕ)
    (hstep : ∀ t < n, ∀ s, P (t + 1) s → ∃ s', f s t = some s' ∧ P t s') {s : σ} (hs : P n s) :
    ∃ s', (List.range n).reverse.foldlM f s = some s' ∧ P 0 s' := by
  induction n generalizing s with
  | zero => exact ⟨s, rfl, hs⟩
  | succ n ih =>
    obtain ⟨s₁, h₁, hs₁⟩ := hstep n (Nat.lt_succ_self n) s hs
    obtain ⟨s₂, h₂, hs₂⟩ := ih (fun t ht => hstep t (Nat.lt_succ_of_lt ht)) hs₁
    refine ⟨s₂, ?_, hs₂⟩
    rw [List.range_succ, List.reverse_append, List.reverse_singleton, List.singleton_append, List.foldlM_cons, h₁]
    exact h₂

/-- The same, if what holds in the end determines the result. -/
theorem foldlM_eq_some {f : σ → α → Option σ} {P : List α → σ → Prop} {l : List α}
    (hstep : ∀ pre, ∀ a ∈ l, ∀ s, P pre s → ∃ s', f s a = some s' ∧ P (pre ++ [a]) s') {s r : σ} (hs : P [] s)
    (hend : ∀ s', P l s' → s' = r) : l.foldlM f s = some r := by
  obtain ⟨s', h, hs'⟩ := exists_foldlM l hstep hs
  rw [h, hend s' hs']

/-! ## Loops -/

/-- What one round of a loop comes to: another round from a new state, or the end of the loop with a
result. -/
inductive Round (σ ρ : Type*)
  | again (s : σ)
  | leave (r : ρ)

def Round.elim (again : σ → τ) (leave : ρ → τ) : Round σ ρ → τ
  | .again s => again s
  | .leave r => leave r

/-- At most `fuel` rounds. -/
def loop (round : σ → Round σ ρ) : Nat → σ → Option ρ
  | 0, _ => none
  | fuel + 1, s =>
    match round s with
    | .again s' => loop round fuel s'
    | .leave r => some r

section Loop

variable {round : σ → Round σ ρ}

theorem loop_again {s s' : σ} (h : round s = .again s') (fuel : Nat) :
    loop round (fuel + 1) s = loop round fuel s' := by
  simp only [loop, h]

theorem loop_leave {s : σ} {r : ρ} (h : round s = .leave r) (fuel : Nat) :
    loop round (fuel + 1) s = some r := by
  simp only [loop, h]

theorem Returns.again {s s' : σ} {r : ρ} (h : round s = .again s')
    (hr : Returns (fun fuel => loop round fuel s') r) : Returns (fun fuel => loop round fuel s) r :=
  Returns.call (loop_again h) hr

theorem Returns.leave {s : σ} {r : ρ} (h : round s = .leave r) : Returns (fun fuel => loop round fuel s) r :=
  Returns.call (loop_leave h) (Returns.pure r)

/-- A loop whose states are known in advance. -/
theorem Returns.loop_run (state : ℕ → σ) {r : ρ} : ∀ (n : ℕ), (∀ t < n, round (state t) = .again (state (t + 1))) →
    round (state n) = .leave r → Returns (fun fuel => loop round fuel (state 0)) r
  | 0, _, hleave => Returns.leave hleave
  | n + 1, hagain, hleave =>
    Returns.again (hagain 0 (Nat.succ_pos n)) (loop_run (fun t => state (t + 1)) n
      (fun t ht => hagain (t + 1) (Nat.succ_lt_succ ht)) hleave)

/-- A loop that counts up to a bound. -/
theorem Returns.loop_range (n : ℕ) (body : σ → ℕ → σ) (s : σ) :
    Returns (fun fuel => loop (fun t : ℕ × σ => if t.1 < n then .again (t.1 + 1, body t.2 t.1) else .leave t.2) fuel
      (0, s)) ((List.range n).foldl body s) := by
  refine Returns.loop_run (fun t => (t, (List.range t).foldl body s)) n (fun t ht => ?_) ?_
  · rw [if_pos ht, List.range_succ, List.foldl_append]
    rfl
  · rw [if_neg (lt_irrefl n)]

/-- A loop that never leaves a set of states does not end. -/
theorem loop_diverges {I : σ → Prop} (h : ∀ s, I s → ∃ s', round s = .again s' ∧ I s') {s : σ} (hs : I s) :
    Diverges fun fuel => loop round fuel s := by
  intro fuel
  induction fuel generalizing s with
  | zero => rfl
  | succ fuel ih =>
    obtain ⟨s', hs', hI⟩ := h s hs
    simp only [loop_again hs']
    exact ih hI

/-- A loop with an invariant and a measure that every round makes less returns what the invariant gives in the end. -/
theorem Returns.loop_of_measure {β : Type*} [Preorder β] [WellFoundedLT β] (measure : σ → β) {I : σ → Prop}
    {P : ρ → Prop}
    (h : ∀ s, I s → (∃ s', round s = .again s' ∧ I s' ∧ measure s' < measure s) ∨ ∃ r, round s = .leave r ∧ P r)
    {s : σ} (hs : I s) : ∃ r, Returns (fun fuel => loop round fuel s) r ∧ P r := by
  induction hm : measure s using WellFoundedLT.induction generalizing s with
  | _ b ih =>
    rcases h s hs with ⟨s', hs', hI, hlt⟩ | ⟨r, hr, hP⟩
    · obtain ⟨r, hr, hP⟩ := ih (measure s') (hm ▸ hlt) hI rfl
      exact ⟨r, Returns.again hs' hr, hP⟩
    · exact ⟨r, Returns.leave hr, hP⟩

end Loop

/-! ## Exceptions -/

/-- A round that may raise; the loop ends with the exception. -/
def attempt {ε : Type*} (round : σ → Except ε (Round σ ρ)) (s : σ) : Round σ (Except ε ρ) :=
  match round s with
  | .error e => .leave (.error e)
  | .ok (.again s') => .again s'
  | .ok (.leave r) => .leave (.ok r)

section Attempt

variable {ε : Type*} {round : σ → Except ε (Round σ ρ)}

theorem attempt_again {s s' : σ} (h : round s = .ok (.again s')) : attempt round s = .again s' := by
  simp only [attempt, h]

theorem attempt_leave {s : σ} {r : ρ} (h : round s = .ok (.leave r)) : attempt round s = .leave (.ok r) := by
  simp only [attempt, h]

end Attempt

/-- A loop whose rounds have loops of their own. -/
def loopM {ε σ ρ : Type} (round : ℕ → σ → ExceptT ε Option (Round σ ρ)) : ℕ → σ → ExceptT ε Option ρ
  | 0, _ => ExceptT.mk none
  | fuel + 1, s => do (← round fuel s).elim (loopM round fuel) Pure.pure

/-- A `for` loop that can be left. -/
def forBreak {ε σ α : Type} (body : α → σ → ExceptT ε Option (Round σ σ)) : List α → σ → ExceptT ε Option σ
  | [], s => pure s
  | a :: l, s => do (← body a s).elim (forBreak body l) Pure.pure

namespace Returns

variable {ε σ ρ α β : Type}

theorem bind_ok {f : ℕ → ExceptT ε Option α} {g : α → ℕ → ExceptT ε Option β} {a : α} {r : Except ε β}
    (hf : Returns f (.ok a)) (hg : Returns (g a) r) :
    Returns (fun fuel => (f fuel >>= fun x => g x fuel : ExceptT ε Option β)) r :=
  Returns.bind (g := fun e fuel => ExceptT.bindCont (fun x => g x fuel) e) hf hg

theorem diverges_bind {f : ℕ → ExceptT ε Option α} {g : α → ℕ → ExceptT ε Option β} (hf : Diverges f) :
    Diverges (fun fuel => (f fuel >>= fun x => g x fuel : ExceptT ε Option β)) := by
  intro fuel
  have hnone : f fuel = ExceptT.mk none := hf fuel
  simp only [hnone]
  rfl

theorem done (a : α) : Returns (fun _ => (Pure.pure a : ExceptT ε Option α)) (.ok a) := Returns.pure _

theorem lift {e : Except ε α} {a : α} (h : e = .ok a) : Returns (fun _ => (liftM e : ExceptT ε Option α)) (.ok a) :=
  h ▸ Returns.pure _

theorem loopM_again {round : ℕ → σ → ExceptT ε Option (Round σ ρ)} {s s' : σ} {r : Except ε ρ}
    (h : Returns (fun fuel => round fuel s) (.ok (.again s'))) (hr : Returns (fun fuel => loopM round fuel s') r) :
    Returns (fun fuel => loopM round fuel s) r := by
  have hround := h.bind_ok (g := fun x fuel => x.elim (loopM round fuel) Pure.pure) hr
  exact Returns.call (fun _ => rfl) hround

theorem loopM_leave {round : ℕ → σ → ExceptT ε Option (Round σ ρ)} {s : σ} {r : ρ}
    (h : Returns (fun fuel => round fuel s) (.ok (.leave r))) : Returns (fun fuel => loopM round fuel s) (.ok r) := by
  have hround := h.bind_ok (g := fun x fuel => x.elim (loopM round fuel) Pure.pure) (Returns.done r)
  exact Returns.call (fun _ => rfl) hround

/-- A loop with an invariant and a measure that every round makes less. -/
theorem loopM_of_measure {γ : Type*} [Preorder γ] [WellFoundedLT γ] (measure : σ → γ) {I : σ → Prop} {P : ρ → Prop}
    {round : ℕ → σ → ExceptT ε Option (Round σ ρ)}
    (h : ∀ s, I s → ∃ r, Returns (fun fuel => round fuel s) (.ok r) ∧
      r.elim (fun s' => I s' ∧ measure s' < measure s) P)
    {s : σ} (hs : I s) : ∃ r, Returns (fun fuel => loopM round fuel s) (.ok r) ∧ P r := by
  induction hm : measure s using WellFoundedLT.induction generalizing s with
  | _ b ih =>
    obtain ⟨r, hr, hP⟩ := h s hs
    cases r with
    | again s' =>
      obtain ⟨r, hr', hP'⟩ := ih (measure s') (hm ▸ hP.2) hP.1 rfl
      exact ⟨r, loopM_again hr hr', hP'⟩
    | leave r => exact ⟨r, loopM_leave hr, hP⟩

/-- A `for` loop over the numbers from `a` on. -/
theorem foldlM_range'_ok {f : ℕ → σ → ℕ → ExceptT ε Option σ} {P : ℕ → σ → Prop} (n a : ℕ)
    (hstep : ∀ t, a ≤ t → t < a + n → ∀ s, P t s → ∃ s', Returns (fun fuel => f fuel s t) (.ok s') ∧ P (t + 1) s')
    {s : σ} (hs : P a s) :
    ∃ s', Returns (fun fuel => ((List.range' a n).foldlM (f fuel) s : ExceptT ε Option σ)) (.ok s') ∧ P (a + n) s' := by
  induction n generalizing a s with
  | zero => exact ⟨s, Returns.done s, hs⟩
  | succ n ih =>
    obtain ⟨s₁, h₁, hs₁⟩ := hstep a le_rfl (by omega) s hs
    obtain ⟨s₂, h₂, hs₂⟩ := ih (a + 1) (fun t hle hlt => hstep t (by omega) (by omega)) hs₁
    have hsum : a + 1 + n = a + (n + 1) := by omega
    exact ⟨s₂, h₁.bind_ok h₂, hsum ▸ hs₂⟩

/-- A `for` loop that can be left, over the numbers from `a` on: where it is left, nothing is left to do. -/
theorem forBreak_range' {body : ℕ → ℕ → σ → ExceptT ε Option (Round σ σ)} {P : ℕ → σ → Prop} (n a : ℕ)
    (hstep : ∀ t, a ≤ t → t < a + n → ∀ s, P t s →
      ∃ r, Returns (fun fuel => body fuel t s) (.ok r) ∧ r.elim (P (t + 1)) (P (a + n)))
    {s : σ} (hs : P a s) :
    ∃ s', Returns (fun fuel => forBreak (body fuel) (List.range' a n) s) (.ok s') ∧ P (a + n) s' := by
  induction n generalizing a s with
  | zero => exact ⟨s, Returns.done s, hs⟩
  | succ n ih =>
    have hsum : a + 1 + n = a + (n + 1) := by omega
    obtain ⟨r, hr, hP⟩ := hstep a le_rfl (by omega) s hs
    have hcons : ∀ fuel, forBreak (body fuel) (List.range' a (n + 1)) s =
        (body fuel a s >>= fun r => r.elim (forBreak (body fuel) (List.range' (a + 1) n)) Pure.pure) := fun _ => by
      rw [List.range'_succ]
      rfl
    simp only [hcons]
    cases r with
    | again s₁ =>
      obtain ⟨s₂, h₂, hs₂⟩ := ih (a + 1) (fun t hle hlt s hs => hsum ▸ hstep t (by omega) (by omega) s hs) hP
      exact ⟨s₂, hr.bind_ok h₂, hsum ▸ hs₂⟩
    | leave s₁ => exact ⟨s₁, hr.bind_ok (Returns.done s₁), hP⟩

end Returns

/-! ## Programs that return a value or do not return -/

section IfReturns

variable {ε σ ρ α β : Type}

/-- If the program returns, then without an exception, and what it returns satisfies `P`. -/
def IfReturns (P : α → Prop) (x : ExceptT ε Option α) : Prop := ∀ e, x.run = some e → ∃ a, e = .ok a ∧ P a

namespace IfReturns

variable {P : α → Prop} {Q : β → Prop}

theorem noFuel : IfReturns P (ExceptT.mk none : ExceptT ε Option α) := fun _ h => by cases h

theorem pure {a : α} (h : P a) : IfReturns P (Pure.pure a : ExceptT ε Option α) := by
  rintro e ⟨⟩
  exact ⟨a, rfl, h⟩

theorem lift {e : Except ε α} {a : α} (he : e = .ok a) (h : P a) : IfReturns P (liftM e : ExceptT ε Option α) :=
  he ▸ pure h

theorem bind {x : ExceptT ε Option α} {f : α → ExceptT ε Option β} (hx : IfReturns P x)
    (hf : ∀ a, P a → IfReturns Q (f a)) : IfReturns Q (x >>= f) := by
  intro e he
  rw [ExceptT.run_bind] at he
  obtain ⟨e', he', he⟩ := Option.bind_eq_some_iff.1 he
  obtain ⟨a, rfl, ha⟩ := hx e' he'
  exact hf a ha e he

/-- A loop with an invariant. -/
theorem loopM {round : ℕ → σ → ExceptT ε Option (Round σ ρ)} {I : σ → Prop} {P : ρ → Prop}
    (h : ∀ fuel s, I s → IfReturns (fun r => r.elim I P) (round fuel s)) (fuel : ℕ) {s : σ} (hs : I s) :
    IfReturns P (Lib.loopM round fuel s) := by
  induction fuel generalizing s with
  | zero => exact noFuel
  | succ fuel ih =>
    refine (h fuel s hs).bind fun r hr => ?_
    cases r with
    | again s' => exact ih hr
    | leave r => exact pure hr

/-- A program that can return nothing does not return. -/
theorem eq_none {x : ExceptT ε Option α} (h : IfReturns (fun _ => False) x) : x.run = none := by
  cases hx : x.run with
  | none => rfl
  | some e =>
    obtain ⟨a, -, hfalse⟩ := h e hx
    exact hfalse.elim

end IfReturns

end IfReturns

end GoodGoodStudy.Lib
