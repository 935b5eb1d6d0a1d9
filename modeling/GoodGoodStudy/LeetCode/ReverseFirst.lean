/-
The first `n` nodes of a singly linked list reversed by recursion. The innermost call keeps what comes behind the nodes
in a local variable, which the other calls do not see: they put `None` behind the last node. The function of the same
name in the exercise 92 keeps it in an attribute of the object, and is right.
-/
import GoodGoodStudy.LeetCode.ReverseKGroup

namespace GoodGoodStudy.LeetCode.ReverseFirst

open GoodGoodStudy.Lib GoodGoodStudy.LeetCode.ReverseKGroup Nodes

/-! ## The code -/

def reverseList : Option Loc → ℕ → Nodes → Except Exc (Option Loc × Nodes)
  | none, _, m => .ok (none, m)
  | some head, 0, m => .ok (some head, m)
  -- `next_normal = head.next` is lost with the call
  | some head, 1, m => .ok (some head, m)
  | some head, n + 2, m => do
    let next_normal := none
    let (last, m) ← reverseList (next m head) (n + 1) m
    let m ← setNext m (next m head) (some head)
    let m := link m head next_normal
    return (last, m)

/-! ### The exercise 92 -/

namespace Between

/-- The nodes, and the attribute `next_normal` of the object, if it has been set. -/
structure State where
  nodes : Nodes
  next_normal : Option (Option Loc)

def reverseList : Option Loc → ℕ → State → Except Exc (Option Loc × State)
  | none, _, s => .ok (none, s)
  | some head, 0, s => .ok (some head, s)
  | some head, 1, s => .ok (some head, { s with next_normal := some (next s.nodes head) })
  | some head, n + 2, s => do
    let (last, s) ← reverseList (next s.nodes head) (n + 1) s
    let m ← setNext s.nodes (next s.nodes head) (some head)
    match s.next_normal with
    | none => .error .attributeError
    | some next_normal => return (last, { s with nodes := link m head next_normal })

/-- `reverseBetween(head, m, n)` with `before + 1` for `m`. -/
def reverseBetween : Option Loc → (before n : ℕ) → State → Except Exc (Option Loc × State)
  | none, _, _, s => .ok (none, s)
  | some head, 0, n, s => reverseList (some head) n s
  | some head, before + 1, n, s => do
    let (behind, s) ← reverseBetween (next s.nodes head) before (n - 1) s
    return (some head, { s with nodes := link s.nodes head behind })

end Between

/-! ## What is reversed -/

variable {m : Nodes} {head q : Option Loc} {x y : Loc} {ys xs : List Loc}

/-- The last of the turned nodes gets the pointer to the node before it, and this one becomes the last. -/
theorem segment_turn {last r : Option Loc} (hrev : Segment (next m) last (y :: ys).reverse q)
    (hnodup : (x :: y :: ys).Nodup) :
    Segment (next (link (link m y (some x)) x r)) last (x :: y :: ys).reverse r := by
  obtain ⟨hx, hnodup'⟩ := List.nodup_cons.1 hnodup
  obtain ⟨hy, -⟩ := List.nodup_cons.1 hnodup'
  have hxy : x ≠ y := fun heq => hx (heq ▸ List.mem_cons_self)
  have hsame : ∀ z ∈ ys.reverse, next (link (link m y (some x)) x r) z = next m z := fun z hz => by
    have hz' := List.mem_reverse.1 hz
    have hzx : z ≠ x := fun heq => hx (heq ▸ List.mem_cons_of_mem y hz')
    have hzy : z ≠ y := fun heq => hy (heq ▸ hz')
    rw [next_link, if_neg hzx, next_link, if_neg hzy]
  rw [List.reverse_cons, segment_append] at hrev
  obtain ⟨_, hys, rfl, -⟩ := hrev
  rw [List.reverse_cons, List.reverse_cons, List.append_assoc, segment_append]
  refine ⟨some y, hys.congr hsame, rfl, ?_, ?_⟩
  · rw [next_link, if_neg hxy.symm, next_link, if_pos rfl]
  · rw [next_link, if_pos rfl]
    rfl

theorem relinked_turn {m' : Nodes} (h : Relinked (y :: ys) m m') (r : Option Loc) :
    Relinked (x :: y :: ys) m (link (link m' y (some x)) x r) := by
  refine (h.mono (List.subset_cons_self x _)).trans (Relinked.trans (.link ?_ _ _) (.link ?_ _ _))
  · exact List.mem_cons_of_mem x List.mem_cons_self
  · exact List.mem_cons_self

/-- A call turns the pointers of the nodes; if there are two or more, nothing is behind the last one. -/
theorem reverseList_spec : ∀ {ys : List Loc} {x : Loc} {m : Nodes}, Segment (next m) (some x) (x :: ys) q →
    (x :: ys).Nodup → ∃ last m' q', reverseList (some x) (ys.length + 1) m = .ok (last, m') ∧
      Relinked (x :: ys) m m' ∧ Segment (next m') last (x :: ys).reverse q' ∧ (ys ≠ [] → q' = none)
  | [], x, m, hseg, _ => ⟨some x, m, q, rfl, .refl [x] m, hseg, fun hne => absurd rfl hne⟩
  | y :: ys, x, m, ⟨_, hseg⟩, hnodup => by
    obtain ⟨hx, hnodup'⟩ := List.nodup_cons.1 hnodup
    have hfirst : next m x = some y := hseg.1
    obtain ⟨last, m₁, q₁, hcall, hre, hrev, -⟩ := reverseList_spec (hfirst ▸ hseg) hnodup'
    have hkeep : next m₁ x = some y := (hre.next x hx).trans hfirst
    refine ⟨last, link (link m₁ y (some x)) x none, none, ?_, relinked_turn hre none, segment_turn hrev hnodup,
      fun _ => rfl⟩
    simp only [List.length_cons, reverseList, hfirst, hcall, bind, Except.bind, hkeep, setNext]
    rfl

/-- The tail is kept if there is none, or if nothing has to be reversed. -/
theorem reverseList_right_iff {n : ℕ} (hseg : Segment (next m) head xs none) (hn : 1 ≤ n) (hle : n ≤ xs.length) :
    ∃ last m', reverseList head n m = .ok (last, m') ∧ Relinked xs m m' ∧
      (Segment (next m') last ((xs.take n).reverse ++ xs.drop n) none ↔ n = 1 ∨ n = xs.length) := by
  obtain ⟨block, rest, rfl, rfl⟩ : ∃ block rest, xs = block ++ rest ∧ block.length = n :=
    ⟨xs.take n, xs.drop n, (List.take_append_drop n xs).symm, by rw [List.length_take, Nat.min_eq_left hle]⟩
  obtain ⟨x, ys, rfl⟩ := List.exists_cons_of_length_pos hn
  have hnodup := (List.nodup_append.1 hseg.nodup).1
  obtain ⟨q, hblock, hrest⟩ := segment_append.1 hseg
  obtain rfl : head = some x := hblock.1
  obtain ⟨last, m', q', hcall, hre, hrev, hend⟩ := reverseList_spec hblock hnodup
  refine ⟨last, m', hcall, hre.mono (List.subset_append_left _ rest), ?_⟩
  rw [List.take_left, List.drop_left, List.length_append]
  cases ys with
  | nil =>
    obtain ⟨rfl, rfl⟩ : some x = last ∧ m = m' := by simpa [reverseList] using hcall
    exact iff_of_true hseg (Or.inl rfl)
  | cons y ys =>
    rw [hend (List.cons_ne_nil y ys)] at hrev
    constructor
    · intro hright
      have heq := congrArg List.length (hrev.eq_of_none hright)
      rw [List.length_append] at heq
      omega
    · rintro (hone | hall)
      · cases hone
      · rwa [List.eq_nil_of_length_eq_zero (by omega : rest.length = 0), List.append_nil]

/-- Three nodes. -/
def three : Nodes where
  get l := if l = 0 then ⟨1, some 1⟩ else if l = 1 then ⟨2, some 2⟩ else ⟨3, none⟩
  fresh := 3

theorem segment_three : Segment (next three) (some 0) [0, 1, 2] none := ⟨rfl, rfl, rfl, rfl⟩

theorem reverseList_right_iff_three : ∃ last m', reverseList (some 0) 3 three = .ok (last, m') ∧
    Relinked [0, 1, 2] three m' ∧
      (Segment (next m') last (([0, 1, 2].take 3).reverse ++ [0, 1, 2].drop 3) none ↔ 3 = 1 ∨ 3 = [0, 1, 2].length) :=
  reverseList_right_iff segment_three (by decide) (by decide)

/-- Of three nodes two are reversed, and the third one is lost. -/
theorem reverseList_two : ∃ last m', reverseList (some 0) 2 three = .ok (last, m') ∧
    Segment (next m') last [1, 0] none ∧
      ¬Segment (next m') last (([0, 1, 2].take 2).reverse ++ [0, 1, 2].drop 2) none := by
  have hlost : Segment (next (link (link three 1 (some 0)) 0 none)) (some 1) [1, 0] none := ⟨rfl, rfl, rfl⟩
  refine ⟨some 1, link (link three 1 (some 0)) 0 none, rfl, hlost, fun hright => ?_⟩
  have heq := hlost.eq_of_none hright
  cases heq

/-! ## The exercise 92 -/

namespace Between

/-- The innermost call keeps what is behind all of the nodes, and every call puts it behind its own node. -/
theorem reverseList_spec : ∀ {ys : List Loc} {x : Loc} {s : State}, Segment (next s.nodes) (some x) (x :: ys) q →
    (x :: ys).Nodup → ∃ last s', reverseList (some x) (ys.length + 1) s = .ok (last, s') ∧ s'.next_normal = some q ∧
      Relinked (x :: ys) s.nodes s'.nodes ∧ Segment (next s'.nodes) last (x :: ys).reverse q
  | [], x, s, hseg, _ => ⟨some x, _, rfl, congrArg some hseg.2, .refl [x] s.nodes, hseg⟩
  | y :: ys, x, s, ⟨_, hseg⟩, hnodup => by
    obtain ⟨hx, hnodup'⟩ := List.nodup_cons.1 hnodup
    have hfirst : next s.nodes x = some y := hseg.1
    obtain ⟨last, s₁, hcall, hnormal, hre, hrev⟩ := reverseList_spec (hfirst ▸ hseg) hnodup'
    have hkeep : next s₁.nodes x = some y := (hre.next x hx).trans hfirst
    refine ⟨last, { s₁ with nodes := link (link s₁.nodes y (some x)) x q }, ?_, hnormal, relinked_turn hre q,
      segment_turn hrev hnodup⟩
    simp only [List.length_cons, reverseList, hfirst, hcall, bind, Except.bind, hkeep, setNext, hnormal]
    rfl

/-- The nodes before those that are reversed, and those behind them, stay. -/
theorem reverseBetween_spec {x : Loc} {ys rest : List Loc} : ∀ {pre : List Loc} {head : Option Loc} {s : State},
    Segment (next s.nodes) head (pre ++ (x :: ys ++ rest)) none →
      ∃ head' s', reverseBetween head pre.length (pre.length + (ys.length + 1)) s = .ok (head', s') ∧
        Relinked (pre ++ x :: ys) s.nodes s'.nodes ∧
          Segment (next s'.nodes) head' (pre ++ ((x :: ys).reverse ++ rest)) none
  | [], head, s, hseg => by
    have hseg' : Segment (next s.nodes) head (x :: ys ++ rest) none := hseg
    obtain ⟨hnodup, -, hdisj⟩ := List.nodup_append.1 hseg'.nodup
    obtain ⟨q, hblock, hrest⟩ := segment_append.1 hseg'
    obtain rfl : head = some x := hblock.1
    obtain ⟨last, s', hcall, -, hre, hrev⟩ := reverseList_spec hblock hnodup
    have hrest' := hre.segment (fun y hy hmem => hdisj y hmem y hy rfl) hrest
    have hturned : Segment (next s'.nodes) last ((x :: ys).reverse ++ rest) none :=
      segment_append.2 ⟨q, hrev, hrest'⟩
    refine ⟨last, s', ?_, hre, hturned⟩
    rw [List.length_nil, Nat.zero_add, ← hcall]
    rfl
  | p :: pre, head, s, hseg => by
    obtain ⟨hp, -⟩ := List.nodup_cons.1 hseg.nodup
    obtain ⟨rfl, hseg⟩ := hseg
    obtain ⟨behind, s₁, hcall, hre, hseg₁⟩ := reverseBetween_spec hseg
    have hn : (p :: pre).length + (ys.length + 1) - 1 = pre.length + (ys.length + 1) := by
      rw [List.length_cons]
      omega
    refine ⟨some p, { s₁ with nodes := link s₁.nodes p behind }, ?_, ?_, rfl, ?_⟩
    · rw [List.length_cons, reverseBetween, ← List.length_cons (a := p), hn, hcall]
      rfl
    · exact (hre.mono (List.subset_cons_self p _)).trans (.link List.mem_cons_self _ _)
    · rw [next_link, if_pos rfl]
      refine hseg₁.congr fun z hz => ?_
      have hmem : z ∈ pre ++ (x :: ys ++ rest) := by
        rcases List.mem_append.1 hz with hpre | hrest
        · exact List.mem_append_left _ hpre
        · rw [List.mem_append, List.mem_reverse, ← List.mem_append] at hrest
          exact List.mem_append_right pre hrest
      have hzp : z ≠ p := fun heq => hp (heq ▸ hmem)
      rw [next_link, if_neg hzp]

end Between

end GoodGoodStudy.LeetCode.ReverseFirst
