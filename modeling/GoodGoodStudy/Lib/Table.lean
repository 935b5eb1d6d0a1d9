/-
Tables that a loop fills cell by cell, in some order. If no cell is computed from cells that the loop has passed, the
table is rewritten in place: every cell is computed from the table before the loop. If no cell is computed from cells
that the loop has still to come to, every cell of the final table is what is computed from the final table.
-/
import Mathlib.Data.List.ProdSigma
import GoodGoodStudy.Lib.Loop

namespace GoodGoodStudy.Lib

section Table

variable {T κ ι α : Type*} [DecidableEq ι] {get : T → ι → α} {step : T → κ → T} {cell : κ → ι} {f : T → κ → α}
  {r : ι → ι → Prop}

/-- A step writes one cell, with a value that is computed from the table. -/
def Writes (get : T → ι → α) (step : T → κ → T) (cell : κ → ι) (f : T → κ → α) : Prop :=
  ∀ t k q, get (step t k) q = if q = cell k then f t k else get t q

section Step

variable {pre : List κ} {k : κ} {t t' : T}

/-- With one more step the cells passed have their values, if they had them before. -/
theorem Writes.written (hw : Writes get step cell f) (hcell : Function.Injective cell) {val : κ → α}
    (h : ∀ k' ∈ pre, get t' (cell k') = val k') (hk : f t' k = val k) :
    ∀ k' ∈ pre ++ [k], get (step t' k) (cell k') = val k' := by
  intro k' hk'
  rw [hw t' k]
  split_ifs with heq
  · rw [hk, hcell heq]
  · exact h k' ((List.mem_append.1 hk').resolve_right fun hmem => heq (congrArg cell (List.mem_singleton.1 hmem)))

theorem Writes.untouched (hw : Writes get step cell f) (h : ∀ q, (∀ k' ∈ pre, q ≠ cell k') → get t' q = get t q) :
    ∀ q, (∀ k' ∈ pre ++ [k], q ≠ cell k') → get (step t' k) q = get t q := by
  intro q hq
  rw [hw t' k, if_neg (hq k (List.mem_append_right pre (List.mem_singleton_self k)))]
  exact h q fun k' hk' => hq k' (List.mem_append_left _ hk')

end Step

/-- Every cell is computed from cells that the loop does not pass before it. -/
theorem Writes.foldl_old (hw : Writes get step cell f) (hcell : Function.Injective cell) {l : List κ}
    (hl : l.Pairwise fun k k' => r (cell k) (cell k'))
    (hf : ∀ k ∈ l, ∀ t t', (∀ q, ¬ r q (cell k) → get t q = get t' q) → f t k = f t' k) (t : T) :
    (∀ k ∈ l, get (l.foldl step t) (cell k) = f t k) ∧
      ∀ q, (∀ k ∈ l, q ≠ cell k) → get (l.foldl step t) q = get t q := by
  refine foldl_split (P := fun pre t' => (∀ k ∈ pre, get t' (cell k) = f t k) ∧
    ∀ q, (∀ k ∈ pre, q ≠ cell k) → get t' q = get t q) (fun pre k rest t' hsplit h => ?_) l [] rfl
    ⟨fun k hk => absurd hk List.not_mem_nil, fun q _ => rfl⟩
  rw [← hsplit, List.pairwise_append] at hl
  -- what the cell is computed from was not passed
  have hold : f t' k = f t k := by
    refine hf k (hsplit ▸ List.mem_append_right pre List.mem_cons_self) t' t fun q hq => h.2 q fun k' hk' heq => ?_
    exact hq (heq ▸ hl.2.2 k' hk' k List.mem_cons_self)
  exact ⟨hw.written hcell h.1 hold, hw.untouched h.2⟩

/-- Every cell is computed from cells that the loop does not write behind it. -/
theorem Writes.foldl_new (hw : Writes get step cell f) (hcell : Function.Injective cell) {l : List κ}
    (hl : l.Pairwise fun k k' => r (cell k) (cell k'))
    (hf : ∀ k ∈ l, ∀ t t', (∀ q, q ≠ cell k → ¬ r (cell k) q → get t q = get t' q) → f t k = f t' k) (t : T) :
    (∀ k ∈ l, get (l.foldl step t) (cell k) = f (l.foldl step t) k) ∧
      ∀ q, (∀ k ∈ l, q ≠ cell k) → get (l.foldl step t) q = get t q := by
  refine foldl_split (P := fun pre t' => (∀ k ∈ pre, get t' (cell k) = f t' k) ∧
    ∀ q, (∀ k ∈ pre, q ≠ cell k) → get t' q = get t q) (fun pre k rest t' hsplit h => ?_) l [] rfl
    ⟨fun k hk => absurd hk List.not_mem_nil, fun q _ => rfl⟩
  -- a step keeps what the cells passed are computed from
  have hkeep : ∀ k' ∈ pre ++ [k], f t' k' = f (step t' k) k' := by
    intro k' hk'
    have hpassed : cell k' = cell k ∨ r (cell k') (cell k) := by
      rcases List.mem_append.1 hk' with hk' | hk'
      · rw [← hsplit, List.pairwise_append] at hl
        exact Or.inr (hl.2.2 k' hk' k List.mem_cons_self)
      · exact Or.inl (congrArg cell (List.mem_singleton.1 hk'))
    have hmem : k' ∈ l := by
      rw [← hsplit]
      rcases List.mem_append.1 hk' with hk' | hk'
      · exact List.mem_append_left _ hk'
      · exact List.mem_append_right pre (List.mem_singleton.1 hk' ▸ List.mem_cons_self)
    refine hf k' hmem t' (step t' k) fun q hne hnot => ?_
    rw [hw t' k q, if_neg]
    rintro rfl
    exact hpassed.elim (fun heq => hne heq.symm) hnot
  refine ⟨hw.written hcell (fun k' hk' => ?_) (hkeep k (List.mem_append_right pre (List.mem_singleton_self k))),
    hw.untouched h.2⟩
  exact (h.1 k' hk').trans (hkeep k' (List.mem_append_left _ hk'))

/-- A table that is filled row after row, from rows that are filled already. -/
theorem Writes.foldl_rows {ρ γ : Type*} [DecidableEq (ρ × γ)] [Preorder ρ] {get : T → ρ × γ → α} {cell : κ → ρ × γ}
    (hw : Writes get step cell f) (hcell : Function.Injective cell) {l : List κ}
    (hl : l.Pairwise fun k k' => (cell k).1 ≤ (cell k').1)
    (hf : ∀ k ∈ l, ∀ t t', (∀ q, q.1 < (cell k).1 → get t q = get t' q) → f t k = f t' k) (t : T) :
    (∀ k ∈ l, get (l.foldl step t) (cell k) = f (l.foldl step t) k) ∧
      ∀ q, (∀ k ∈ l, q ≠ cell k) → get (l.foldl step t) q = get t q :=
  hw.foldl_new (r := fun p q => p.1 ≤ q.1) hcell hl (fun k hk t t' heq => hf k hk t t' fun q hq =>
    heq q (fun h => lt_irrefl _ (h ▸ hq)) (not_le_of_gt hq)) t

end Table

/-! ## Old and new values -/

section Filled

variable {ι α : Type*} {D D' : ι → Prop} {f f₀ v v' : ι → α} {p : ι}

/-- The values of a table are new at some places, and old elsewhere. -/
structure FilledAt (D : ι → Prop) (f f₀ v : ι → α) : Prop where
  new : ∀ q, D q → v q = f q
  old : ∀ q, ¬D q → v q = f₀ q

namespace FilledAt

theorem congr (h : FilledAt D f f₀ v) (hD : ∀ q, D' q ↔ D q) : FilledAt D' f f₀ v :=
  ⟨fun q hq => h.new q ((hD q).1 hq), fun q hq => h.old q fun hDq => hq ((hD q).2 hDq)⟩

/-- The new value is written. -/
theorem write [DecidableEq ι] (h : FilledAt D f f₀ v) (hv : ∀ q, v' q = if q = p then f p else v q)
    (hD : ∀ q, D' q ↔ D q ∨ q = p) : FilledAt D' f f₀ v' := by
  refine ⟨fun q hq => ?_, fun q hq => ?_⟩
  · rw [hv]
    split_ifs with hqp
    · rw [hqp]
    · exact h.new q (((hD q).1 hq).resolve_right hqp)
  · rw [hD, not_or] at hq
    rw [hv, if_neg hq.2]
    exact h.old q hq.1

/-- The old value is the new one. -/
theorem keep (h : FilledAt D f f₀ v) (hp : v p = f p) (hD : ∀ q, D' q ↔ D q ∨ q = p) : FilledAt D' f f₀ v := by
  refine ⟨fun q hq => ?_, fun q hq => h.old q fun hDq => hq ((hD q).2 (Or.inl hDq))⟩
  rcases (hD q).1 hq with hq | rfl
  · exact h.new q hq
  · exact hp

end FilledAt

end Filled

/-! ## Nested loops -/

section Nested

variable {α β : Type*}

theorem pairwise_product {r : α → α → Prop} {r' : β → β → Prop} {bs : List β} (hbs : bs.Pairwise r') :
    ∀ {as : List α}, as.Pairwise r → (as ×ˢ bs).Pairwise (Prod.Lex r r')
  | [], _ => List.Pairwise.nil
  | a :: as, has => by
    obtain ⟨ha, has⟩ := List.pairwise_cons.1 has
    rw [List.product_cons, List.pairwise_append, List.pairwise_map]
    refine ⟨hbs.imp fun h => Prod.Lex.right a h, pairwise_product hbs has, fun p hp q hq => ?_⟩
    obtain ⟨b, -, rfl⟩ := List.mem_map.1 hp
    exact Prod.Lex.left b q.2 (ha q.1 (List.mem_product.1 hq).1)

/-- The outer loop of two nested loops. -/
theorem pairwise_product_le [PartialOrder α] {as : List α} (has : as.Pairwise (· < ·)) (bs : List β) :
    (as ×ˢ bs).Pairwise fun p q => p.1 ≤ q.1 := by
  have hbs : bs.Pairwise fun _ _ => True := List.pairwise_of_forall fun _ _ => trivial
  exact (pairwise_product hbs has).imp fun h => (Prod.lex_def.1 h).elim le_of_lt fun h => h.1.le

end Nested

end GoodGoodStudy.Lib
