/-
Depth-first search: a list is built up choice by choice, each allowed after the ones made before. The search visits the
complete lists in the order of the choices, every one that is allowed all the way exactly once. If the choices are the
elements of a list, and every one can be made once, it visits the arrangements of the list.
-/
import Mathlib.Data.List.FinRange
import Mathlib.Data.List.Nodup
import Mathlib.Data.List.Flatten
import Mathlib.Data.List.Perm.Basic

namespace GoodGoodStudy.Lib

variable {α : Type*}

/-- Each choice of the list is allowed after those before it. -/
def Allowed (ok : List α → α → Prop) : (pre suf : List α) → Prop
  | _, [] => True
  | pre, a :: suf => ok pre a ∧ Allowed ok (pre ++ [a]) suf

theorem allowed_iff {ok : List α → α → Prop} {pre suf : List α} :
    Allowed ok pre suf ↔ ∀ u a v, suf = u ++ a :: v → ok (pre ++ u) a := by
  induction suf generalizing pre with
  | nil => exact iff_of_true trivial fun u a v h => by simp at h
  | cons b suf ih =>
    rw [Allowed, ih]
    constructor
    · rintro ⟨hb, hsuf⟩ u a v h
      cases u with
      | nil =>
        obtain ⟨rfl, -⟩ := List.cons.inj h
        rwa [List.append_nil]
      | cons c u =>
        obtain ⟨rfl, htail⟩ := List.cons.inj h
        have hok := hsuf u a v htail
        rwa [List.append_assoc] at hok
    · intro h
      refine ⟨by simpa using h [] b suf rfl, fun u a v hsuf => ?_⟩
      rw [List.append_assoc]
      exact h (b :: u) a v (by rw [hsuf]; rfl)

section Extensions

variable (ok : List α → α → Prop) [∀ pre, DecidablePred (ok pre)] (choices : List α)

/-- What is found behind a list, in the order of the search, when `left` choices are left. -/
def extensions : (left : ℕ) → (pre : List α) → List (List α)
  | 0, pre => [pre]
  | left + 1, pre => choices.flatMap fun a => if ok pre a then extensions left (pre ++ [a]) else []

theorem mem_extensions {left : ℕ} {pre l : List α} :
    l ∈ extensions ok choices left pre ↔
      ∃ suf, l = pre ++ suf ∧ suf.length = left ∧ (∀ a ∈ suf, a ∈ choices) ∧ Allowed ok pre suf := by
  induction left generalizing pre with
  | zero =>
    rw [extensions, List.mem_singleton]
    constructor
    · rintro rfl
      exact ⟨[], (List.append_nil _).symm, rfl, fun a ha => absurd ha List.not_mem_nil, trivial⟩
    · rintro ⟨suf, rfl, hlen, -⟩
      rw [List.eq_nil_of_length_eq_zero hlen, List.append_nil]
  | succ left ih =>
    rw [extensions, List.mem_flatMap]
    constructor
    · rintro ⟨a, ha, hl⟩
      obtain ⟨hok, hl⟩ := List.mem_ite_nil_right.1 hl
      obtain ⟨suf, rfl, hlen, hmem, hallowed⟩ := ih.1 hl
      exact ⟨a :: suf, by simp, by simp [hlen], List.forall_mem_cons.2 ⟨ha, hmem⟩, hok, hallowed⟩
    · rintro ⟨suf, rfl, hlen, hmem, hallowed⟩
      obtain ⟨a, suf, rfl⟩ := List.exists_of_length_succ suf hlen
      obtain ⟨ha, hmem⟩ := List.forall_mem_cons.1 hmem
      refine ⟨a, ha, ?_⟩
      rw [if_pos hallowed.1]
      exact ih.2 ⟨suf, by simp, by simpa using hlen, hmem, hallowed.2⟩

/-- Nothing is found twice. -/
theorem nodup_extensions (hchoices : choices.Nodup) (left : ℕ) (pre : List α) :
    (extensions ok choices left pre).Nodup := by
  induction left generalizing pre with
  | zero => exact List.nodup_singleton pre
  | succ left ih =>
    rw [extensions, List.nodup_flatMap]
    refine ⟨fun a _ => ?_, ?_⟩
    · split_ifs
      · exact ih _
      · exact List.nodup_nil
    · -- what is found behind different choices differs in that place
      apply hchoices.pairwise_of_forall_ne
      intro a _ b _ hab l hla hlb
      obtain ⟨u, rfl, -⟩ := (mem_extensions ok choices).1 (List.mem_ite_nil_right.1 hla).2
      obtain ⟨v, h, -⟩ := (mem_extensions ok choices).1 (List.mem_ite_nil_right.1 hlb).2
      rw [List.append_assoc, List.append_assoc, List.append_cancel_left_eq] at h
      exact hab (List.cons.inj h).1

end Extensions

/-! ## Arrangements -/

/-- Every rearrangement of the list is there once, and nothing else. -/
def EachOnce (res : List (List α)) (l : List α) : Prop := res.Nodup ∧ ∀ p, p ∈ res ↔ p.Perm l

theorem EachOnce.of_perm {res : List (List α)} {l l' : List α} (h : EachOnce res l) (hl : l.Perm l') :
    EachOnce res l' :=
  ⟨h.1, fun p => (h.2 p).trans ⟨fun hp => hp.trans hl, fun hp => hp.trans hl.symm⟩⟩

theorem EachOnce.map {β : Type*} {f : α → β} (hf : Function.Injective f) {res : List (List α)} {l : List α}
    (h : EachOnce res l) : EachOnce (res.map (List.map f)) (l.map f) := by
  refine ⟨h.1.map (List.map_injective_iff.2 hf), fun p => ?_⟩
  rw [List.mem_map, ← congrFun₂ (List.eq_map_comp_perm f) p l]
  constructor
  · rintro ⟨q, hq, rfl⟩
    exact ⟨q, rfl, (h.2 q).1 hq⟩
  · rintro ⟨q, rfl, hq⟩
    exact ⟨q, (h.2 q).2 hq, rfl⟩

theorem allowed_notMem {pre suf : List α} (hpre : pre.Nodup) :
    Allowed (fun pre a => a ∉ pre) pre suf ↔ (pre ++ suf).Nodup := by
  induction suf generalizing pre with
  | nil =>
    rw [List.append_nil]
    exact iff_of_true trivial hpre
  | cons a suf ih =>
    have hconcat : (pre ++ [a]).Nodup ↔ a ∉ pre := by
      rw [List.nodup_append_comm]
      exact List.nodup_cons.trans (and_iff_left hpre)
    unfold Allowed
    constructor
    · rintro ⟨ha, hsuf⟩
      have hnodup := (ih (hconcat.2 ha)).1 hsuf
      rwa [List.append_assoc] at hnodup
    · intro hnodup
      rw [← List.singleton_append, ← List.append_assoc] at hnodup
      have ha := hnodup.of_append_left
      exact ⟨hconcat.1 ha, (ih ha).2 hnodup⟩

/-- Elements of a list without repetitions, none of which is chosen twice. -/
theorem extensions_eachOnce [DecidableEq α] {l : List α} (hl : l.Nodup) :
    EachOnce (extensions (fun pre a => a ∉ pre) l l.length []) l := by
  refine ⟨nodup_extensions _ l hl l.length [], fun p => ?_⟩
  rw [mem_extensions]
  constructor
  · rintro ⟨suf, rfl, hlen, hmem, hallowed⟩
    have hnodup := (allowed_notMem List.nodup_nil).1 hallowed
    exact (List.subperm_of_subset hnodup hmem).perm_of_length_le hlen.ge
  · intro hp
    exact ⟨p, rfl, hp.length_eq, hp.subset, (allowed_notMem List.nodup_nil).2 (hp.nodup_iff.2 hl)⟩

section Arrangements

variable (keep : (l : List α) → Fin l.length → Prop) [∀ l, DecidablePred (keep l)]

/-- What is found with `left` choices left, if the elements at the places that are kept are taken out one after the
other. -/
def arrangements : (left : ℕ) → List α → List (List α)
  | 0, _ => [[]]
  | left + 1, l => (List.finRange l.length).flatMap fun i =>
    if keep l i then (arrangements left (l.eraseIdx i)).map (l.get i :: ·) else []

/-- Of each element one place is kept, now and behind every choice. -/
structure KeepsOne (P : List α → Prop) : Prop where
  eraseIdx : ∀ l, P l → ∀ i, P (l.eraseIdx i)
  exists_keep : ∀ l, P l → ∀ a ∈ l, ∃ i, keep l i ∧ l.get i = a
  unique : ∀ l, P l → ∀ i j, keep l i → keep l j → l.get i = l.get j → i = j

variable {keep} {P : List α → Prop}

theorem KeepsOne.mem_arrangements (hkeep : KeepsOne keep P) {l p : List α} (hl : P l) :
    p ∈ arrangements keep l.length l ↔ p.Perm l := by
  induction hn : l.length generalizing l p with
  | zero =>
    rw [List.eq_nil_of_length_eq_zero hn, List.perm_nil]
    exact List.mem_singleton
  | succ n ih =>
    have hlen : ∀ i : Fin l.length, (l.eraseIdx i).length = n := fun i => by
      rw [List.length_eraseIdx_of_lt i.isLt, hn, Nat.add_sub_cancel]
    have hperm : ∀ i : Fin l.length, (l.get i :: l.eraseIdx i).Perm l := fun i => List.getElem_cons_eraseIdx_perm i.isLt
    unfold arrangements
    rw [List.mem_flatMap]
    constructor
    · rintro ⟨i, -, hp⟩
      obtain ⟨-, hp⟩ := List.mem_ite_nil_right.1 hp
      obtain ⟨q, hq, rfl⟩ := List.mem_map.1 hp
      exact (((ih (hkeep.eraseIdx l hl i) (hlen i)).1 hq).cons _).trans (hperm i)
    · intro hp
      cases p with
      | nil => rw [hp.symm.eq_nil] at hn; cases hn
      | cons a p =>
        obtain ⟨i, hi, rfl⟩ := hkeep.exists_keep l hl a (hp.subset List.mem_cons_self)
        refine ⟨i, List.mem_finRange i, List.mem_ite_nil_right.2 ⟨hi, List.mem_map.2 ⟨p, ?_, rfl⟩⟩⟩
        exact (ih (hkeep.eraseIdx l hl i) (hlen i)).2 ((hp.trans (hperm i).symm).cons_inv)

theorem KeepsOne.nodup_arrangements (hkeep : KeepsOne keep P) (left : ℕ) {l : List α} (hl : P l) :
    (arrangements keep left l).Nodup := by
  induction left generalizing l with
  | zero => exact List.nodup_singleton []
  | succ left ih =>
    unfold arrangements
    rw [List.nodup_flatMap]
    refine ⟨fun i _ => ?_, (List.nodup_finRange _).pairwise_of_forall_ne fun i _ j _ hij p hpi hpj => hij ?_⟩
    · split_ifs
      · exact (ih (hkeep.eraseIdx l hl i)).map (List.cons_injective)
      · exact List.nodup_nil
    · -- what is found behind two choices begins with them
      obtain ⟨hi, hpi⟩ := List.mem_ite_nil_right.1 hpi
      obtain ⟨hj, hpj⟩ := List.mem_ite_nil_right.1 hpj
      obtain ⟨q, -, rfl⟩ := List.mem_map.1 hpi
      obtain ⟨q', -, heq⟩ := List.mem_map.1 hpj
      exact hkeep.unique l hl i j hi hj (List.cons.inj heq).1.symm

theorem KeepsOne.eachOnce (hkeep : KeepsOne keep P) {l : List α} (hl : P l) :
    EachOnce (arrangements keep l.length l) l :=
  ⟨hkeep.nodup_arrangements l.length hl, fun _ => hkeep.mem_arrangements hl⟩

end Arrangements

end GoodGoodStudy.Lib
