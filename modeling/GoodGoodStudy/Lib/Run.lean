/-
Runs of a partial, executable step function: `run step s as` performs the actions `as` one after
the other and fails when one of them cannot be performed. The rules of the module turn facts about
one step into facts about whole runs: invariants, invariants of the runs whose every step meets a
condition, and refinement of a machine that answers each action by an abstract one.
-/
import Mathlib.Data.List.Forall2
import Mathlib.Logic.Basic

namespace GoodGoodStudy.Lib

variable {σ τ α ω : Type*}

/-- Perform the actions in order. -/
def run (step : σ → α → Option σ) : σ → List α → Option σ
  | s, [] => some s
  | s, a :: as => (step s a).bind fun s' => run step s' as

/-- Perform the actions in order and collect the answers. -/
def runOut (step : σ → α → Option (σ × ω)) : σ → List α → Option (σ × List ω)
  | s, [] => some (s, [])
  | s, a :: as => do
    let (s, o) ← step s a
    let (s, os) ← runOut step s as
    return (s, o :: os)

section Run

variable {step : σ → α → Option σ}

@[simp] theorem run_nil (s : σ) : run step s [] = some s := rfl

theorem run_cons (s : σ) (a : α) (as : List α) :
    run step s (a :: as) = (step s a).bind fun s' => run step s' as := rfl

theorem run_cons_some {s t : σ} {a : α} {as : List α} :
    run step s (a :: as) = some t ↔ ∃ s', step s a = some s' ∧ run step s' as = some t := by
  rw [run_cons, Option.bind_eq_some_iff]

theorem run_append (s : σ) (as bs : List α) :
    run step s (as ++ bs) = (run step s as).bind fun s' => run step s' bs := by
  induction as generalizing s with
  | nil => rfl
  | cons a as ih =>
    rw [List.cons_append, run_cons, run_cons, Option.bind_assoc]
    exact congrArg _ (funext ih)

/-- Every step of the run starts in a state and with an action that satisfy `ok`. -/
def StepsOk (step : σ → α → Option σ) (ok : σ → α → Prop) : σ → List α → Prop
  | _, [] => True
  | s, a :: as => ok s a ∧ ∀ s', step s a = some s' → StepsOk step ok s' as

instance decidableStepsOk {ok : σ → α → Prop} [∀ s a, Decidable (ok s a)] :
    ∀ (s : σ) (as : List α), Decidable (StepsOk step ok s as)
  | _, [] => isTrue trivial
  | s, a :: as =>
    match h : step s a with
    | none => decidable_of_iff (ok s a) ⟨fun hok => ⟨hok, fun s' hs => by rw [h] at hs; cases hs⟩, And.left⟩
    | some s' =>
      have : Decidable (StepsOk step ok s' as) := decidableStepsOk s' as
      decidable_of_iff (ok s a ∧ StepsOk step ok s' as)
        ⟨fun hok => ⟨hok.1, fun t ht => Option.some.inj (h.symm.trans ht) ▸ hok.2⟩, fun hok => ⟨hok.1, hok.2 s' h⟩⟩

/-- A property that holds at the start and is preserved by every step that meets the condition
holds at the end of every run whose steps all meet it. -/
theorem run_invariant {I : σ → Prop} {ok : σ → α → Prop}
    (hstep : ∀ s a s', I s → ok s a → step s a = some s' → I s') :
    ∀ {as : List α} {s t : σ}, I s → StepsOk step ok s as → run step s as = some t → I t
  | [], s, t, hI, _, h => by cases h; exact hI
  | a :: as, s, t, hI, hok, h => by
    obtain ⟨s', hs, h⟩ := run_cons_some.1 h
    exact run_invariant hstep (hstep s a s' hI hok.1 hs) (hok.2 s' hs) h

/-- If every step from a state with the invariant can be done and keeps it, every run can be done and keeps it. -/
theorem run_total {I : σ → Prop} (hstep : ∀ s a, I s → ∃ s', step s a = some s' ∧ I s') :
    ∀ (as : List α) {s : σ}, I s → ∃ t, run step s as = some t ∧ I t
  | [], s, hI => ⟨s, rfl, hI⟩
  | a :: as, s, hI => by
    obtain ⟨s', hs, hI'⟩ := hstep s a hI
    obtain ⟨t, ht, hIt⟩ := run_total hstep as hI'
    exact ⟨t, run_cons_some.2 ⟨s', hs, ht⟩, hIt⟩

/-- A property holds in every state of the run, as far as it gets. -/
def AllStates (step : σ → α → Option σ) (P : σ → Prop) : σ → List α → Prop
  | s, [] => P s
  | s, a :: as => P s ∧ ∀ s', step s a = some s' → AllStates step P s' as

theorem AllStates.of_run {P : σ → Prop} : ∀ {as : List α} {s t : σ}, AllStates step P s as →
    run step s as = some t → P t
  | [], _, _, h, ht => by cases ht; exact h
  | _ :: _, _, _, h, ht => by
    obtain ⟨s', hs, ht⟩ := run_cons_some.1 ht
    exact AllStates.of_run (h.2 s' hs) ht

theorem AllStates.and {P Q : σ → Prop} : ∀ {as : List α} {s : σ}, AllStates step P s as → AllStates step Q s as →
    AllStates step (fun s => P s ∧ Q s) s as
  | [], _, h, h' => ⟨h, h'⟩
  | _ :: _, _, h, h' => ⟨⟨h.1, h'.1⟩, fun s' hs => AllStates.and (h.2 s' hs) (h'.2 s' hs)⟩

/-- An invariant that is preserved by the steps from states of which the property holds. -/
theorem run_invariant_along {I P : σ → Prop} (hstep : ∀ s a s', I s → P s → step s a = some s' → I s') :
    ∀ {as : List α} {s t : σ}, I s → AllStates step P s as → run step s as = some t → I t
  | [], _, _, hI, _, ht => by cases ht; exact hI
  | a :: _, s, _, hI, h, ht => by
    obtain ⟨s', hs, ht⟩ := run_cons_some.1 ht
    exact run_invariant_along hstep (hstep s a s' hI h.1 hs) (h.2 s' hs) ht

/-- If steps that meet the condition preserve an invariant that gives the property, and every other step can be
performed and breaks the property, then the property holds along the runs whose steps all meet the condition, and
along no others. -/
theorem allStates_iff_stepsOk {I P : σ → Prop} {ok : σ → α → Prop} (hP : ∀ s, I s → P s)
    (hstep : ∀ s a s', I s → ok s a → step s a = some s' → I s')
    (hbad : ∀ s a, I s → ¬ ok s a → ∃ s', step s a = some s' ∧ ¬ P s') :
    ∀ (as : List α) {s : σ}, I s → (AllStates step P s as ↔ StepsOk step ok s as)
  | [], s, hI => ⟨fun _ => trivial, fun _ => hP s hI⟩
  | a :: as, s, hI => by
    by_cases hok : ok s a
    · have hrec : ∀ s', step s a = some s' → (AllStates step P s' as ↔ StepsOk step ok s' as) :=
        fun s' hs => allStates_iff_stepsOk hP hstep hbad as (hstep s a s' hI hok hs)
      exact ⟨fun h => ⟨hok, fun s' hs => (hrec s' hs).1 (h.2 s' hs)⟩,
        fun h => ⟨hP s hI, fun s' hs => (hrec s' hs).2 (h.2 s' hs)⟩⟩
    · obtain ⟨s', hs, hnot⟩ := hbad s a hI hok
      refine ⟨fun h => absurd ?_ hnot, fun h => absurd h.1 hok⟩
      have hall := h.2 s' hs
      cases as with
      | nil => exact hall
      | cons b as => exact hall.1

/-- A condition that follows from the action alone holds along every run of such actions. -/
theorem stepsOk_of_forall {ok : σ → α → Prop} {as : List α} (h : ∀ a ∈ as, ∀ s, ok s a) (s : σ) :
    StepsOk step ok s as := by
  induction as generalizing s with
  | nil => trivial
  | cons a as ih =>
    exact ⟨h a List.mem_cons_self s, fun s' _ => ih (fun b hb => h b (List.mem_cons_of_mem _ hb)) s'⟩

end Run

section Refine

variable {step : σ → α → Option (σ × ω)} {spec : τ → α → τ × ω}

/-- The answers of a total machine. -/
def outputs (spec : τ → α → τ × ω) : τ → List α → List ω
  | _, [] => []
  | t, a :: as => (spec t a).2 :: outputs spec (spec t a).1 as

/-- The state a total machine ends in. -/
def final (spec : τ → α → τ × ω) (t : τ) (as : List α) : τ := as.foldl (fun t a => (spec t a).1) t

theorem final_append (t : τ) (as bs : List α) :
    final spec t (as ++ bs) = final spec (final spec t as) bs := List.foldl_append

/-- What holds at the start and is preserved holds of the state a total machine ends in, and what
every answer given in such a state satisfies holds of all answers. -/
theorem outputs_invariant {I : τ → Prop} {P : ω → Prop} (hI : ∀ t a, I t → I (spec t a).1)
    (hP : ∀ t a, I t → P (spec t a).2) : ∀ (as : List α) {t : τ}, I t → ∀ o ∈ outputs spec t as, P o
  | a :: as, t, ht, o, ho => by
    rcases List.mem_cons.1 ho with rfl | ho
    · exact hP t a ht
    · exact outputs_invariant hI hP as (hI t a ht) o ho

/-- If every action of the run succeeds from every state, with an answer that satisfies its specification, then the run
succeeds, and every answer satisfies the specification of its action, whatever came before. -/
theorem runOut_forall₂ {P : α → ω → Prop} : ∀ {as : List α},
    (∀ a ∈ as, ∀ s, ∃ s' o, step s a = some (s', o) ∧ P a o) → ∀ s,
      ∃ s' os, runOut step s as = some (s', os) ∧ List.Forall₂ P as os
  | [], _, s => ⟨s, [], rfl, .nil⟩
  | a :: as, h, s => by
    obtain ⟨s₁, o, h₁, ho⟩ := h a List.mem_cons_self s
    obtain ⟨s₂, os, h₂, hos⟩ := runOut_forall₂ (fun b hb => h b (List.mem_cons_of_mem a hb)) s₁
    exact ⟨s₂, o :: os, by simp [runOut, h₁, h₂], .cons ho hos⟩

/-- Refinement: if from related states every action succeeds, answers as the abstract machine does
and leads to related states, then every run succeeds with the abstract answers and ends related. -/
theorem runOut_refines {R : σ → τ → Prop}
    (hstep : ∀ s t a, R s t → ∃ s', step s a = some (s', (spec t a).2) ∧ R s' (spec t a).1) :
    ∀ (as : List α) {s : σ} {t : τ}, R s t →
      ∃ s', runOut step s as = some (s', outputs spec t as) ∧ R s' (final spec t as)
  | [], s, t, hR => ⟨s, rfl, hR⟩
  | a :: as, s, t, hR => by
    obtain ⟨s₁, h₁, hR₁⟩ := hstep s t a hR
    obtain ⟨s₂, h₂, hR₂⟩ := runOut_refines hstep as hR₁
    exact ⟨s₂, by simp [runOut, outputs, h₁, h₂], hR₂⟩

/-- Refinement under a relation that knows the actions that are still to come. -/
theorem runOut_refines_ahead {R : List α → σ → τ → Prop}
    (hstep : ∀ a as s t, R (a :: as) s t → ∃ s', step s a = some (s', (spec t a).2) ∧ R as s' (spec t a).1) :
    ∀ (as : List α) {s : σ} {t : τ}, R as s t →
      ∃ s', runOut step s as = some (s', outputs spec t as) ∧ R [] s' (final spec t as)
  | [], s, t, hR => ⟨s, rfl, hR⟩
  | a :: as, s, t, hR => by
    obtain ⟨s₁, h₁, hR₁⟩ := hstep a as s t hR
    obtain ⟨s₂, h₂, hR₂⟩ := runOut_refines_ahead hstep as hR₁
    exact ⟨s₂, by simp [runOut, outputs, h₁, h₂], hR₂⟩

end Refine

end GoodGoodStudy.Lib
